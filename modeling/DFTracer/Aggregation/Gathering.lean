/-
# What a statistic gathers

Whatever the order and the grouping of its contributions, the count of a statistic, its
sum and its exact values are those of all contributions together. Which of the starting
values its extremes are, that may depend on the order; where it does not, statistics of
the same contributions read alike.
-/

import DFTracer.Aggregation.Contributions

namespace DFTracer.Aggregation

open Math.Float64 (wholeNat wholeNat_add toFloat_eq_wholeNat)
open Contribution List

/-! ## What a statistic has gathered -/

/-- The exact values of a statistic: the sum, and an extreme among the values. -/
structure Exact (s : FieldStat) (cs : List Contribution) : Prop where
  domain : s.domain = .U64
  esum : s.esum = UInt64.ofNat (totalSum cs)
  emin : (∃ c ∈ cs, s.emin = c.total) ∧ ∀ c ∈ cs, s.emin ≤ c.total
  emax : (∃ c ∈ cs, s.emax = c.total) ∧ ∀ c ∈ cs, c.total ≤ s.emax

/-- The statistic has gathered exactly these contributions. -/
structure Gathers (s : FieldStat) (cs : List Contribution) : Prop where
  count : s.n.toNat = countSum cs
  absent : cs = [] → s = {}
  sum : totalSum cs < 2 ^ 53 → s.sum = wholeNat (totalSum cs)
  extreme : cs ≠ [] → ∀ side : Side, side.Reached (side.of s) cs
  exact : cs ≠ [] → (∀ c ∈ cs, c.isExact) → Exact s cs
  inexact : (∃ c ∈ cs, c.isExact = false) → s.domain = .F64

namespace Gathers

theorem empty : Gathers {} [] where
  count := rfl
  absent := fun _ => rfl
  sum := fun _ => rfl
  extreme := fun h => absurd rfl h
  exact := fun h => absurd rfl h
  inexact := fun ⟨_, h, _⟩ => absurd h not_mem_nil

variable {s o : FieldStat} {cs ds : List Contribution}

theorem perm (h : Gathers s cs) (hperm : cs.Perm ds) : Gathers s ds where
  count := h.count.trans (countSum_perm hperm)
  absent := fun hd => h.absent (perm_nil.mp (hd ▸ hperm))
  sum := by
    rw [← totalSum_perm hperm]
    exact h.sum
  extreme := fun hd side =>
    (h.extreme (fun hc => hd (nil_perm.mp (hc ▸ hperm))) side).perm hperm
  exact := fun hd hall => by
    have hexact := h.exact (fun hc => hd (nil_perm.mp (hc ▸ hperm)))
      fun c hc => hall c (hperm.mem_iff.mp hc)
    refine ⟨hexact.domain, hexact.esum.trans (by rw [totalSum_perm hperm]), ?_, ?_⟩
    · obtain ⟨⟨c, hc, heq⟩, hle⟩ := hexact.emin
      exact ⟨⟨c, hperm.mem_iff.mp hc, heq⟩, fun d hd => hle d (hperm.mem_iff.mpr hd)⟩
    · obtain ⟨⟨c, hc, heq⟩, hle⟩ := hexact.emax
      exact ⟨⟨c, hperm.mem_iff.mp hc, heq⟩, fun d hd => hle d (hperm.mem_iff.mpr hd)⟩
  inexact := fun ⟨c, hc, hnot⟩ => h.inexact ⟨c, hperm.mem_iff.mpr hc, hnot⟩

/-- A statistic that counts nothing has gathered nothing. -/
theorem eq_nil (h : Gathers s cs) (heff : ∀ c ∈ cs, c.n ≠ 0) (hs : s.n = 0) : cs = [] := by
  have hcount := h.count
  rw [hs] at hcount
  rw [eq_nil_iff_forall_not_mem]
  intro c hc
  have hpos : 0 < c.n.toNat := by
    have := heff c hc
    rw [Nat.pos_iff_ne_zero]
    exact fun hz => this (UInt64.toNat_inj.mp hz)
  have hle : c.n.toNat ≤ countSum cs :=
    single_le_sum (fun _ _ => Nat.zero_le _) _ (mem_map_of_mem hc)
  have hzero : (0 : UInt64).toNat = 0 := rfl
  omega

/-- A statistic that counts something has gathered something. -/
theorem ne_nil (h : Gathers s cs) (hs : s.n ≠ 0) : cs ≠ [] := by
  intro hnil
  rw [h.absent hnil] at hs
  exact hs rfl

end Gathers

variable {s t : FieldStat} {cs ds : List Contribution} {side : Side} {m : Nat}

/-- The exact values of two merged statistics. -/
theorem Exact.append {o : FieldStat} (hs : Exact s cs)
    (ho : Exact o ds) (domain : t.domain = .U64) (esum : t.esum = s.esum + o.esum)
    (emin : t.emin = if o.emin < s.emin then o.emin else s.emin)
    (emax : t.emax = if s.emax < o.emax then o.emax else s.emax) : Exact t (cs ++ ds) := by
  obtain ⟨⟨c, hc, hcmin⟩, hcs⟩ := hs.emin
  obtain ⟨⟨d, hd, hdmin⟩, hds⟩ := ho.emin
  obtain ⟨⟨c', hc', hcmax⟩, hcs'⟩ := hs.emax
  obtain ⟨⟨d', hd', hdmax⟩, hds'⟩ := ho.emax
  refine ⟨domain, ?_, ?_, ?_⟩
  · rw [esum, hs.esum, ho.esum, totalSum_append, UInt64.ofNat_add]
  · by_cases hlt : o.emin < s.emin
    · rw [if_pos hlt] at emin
      refine ⟨⟨d, mem_append_right _ hd, emin.trans hdmin⟩, fun e he => ?_⟩
      rw [emin]
      rcases mem_append.mp he with hin | hin
      · exact UInt64.le_trans (UInt64.le_of_lt hlt) (hcs e hin)
      · exact hds e hin
    · rw [if_neg hlt] at emin
      refine ⟨⟨c, mem_append_left _ hc, emin.trans hcmin⟩, fun e he => ?_⟩
      rw [emin]
      rcases mem_append.mp he with hin | hin
      · exact hcs e hin
      · exact UInt64.le_trans (UInt64.not_lt.mp hlt) (hds e hin)
  · by_cases hlt : s.emax < o.emax
    · rw [if_pos hlt] at emax
      refine ⟨⟨d', mem_append_right _ hd', emax.trans hdmax⟩, fun e he => ?_⟩
      rw [emax]
      rcases mem_append.mp he with hin | hin
      · exact UInt64.le_trans (hcs' e hin) (UInt64.le_of_lt hlt)
      · exact hds' e hin
    · rw [if_neg hlt] at emax
      refine ⟨⟨c', mem_append_left _ hc', emax.trans hcmax⟩, fun e he => ?_⟩
      rw [emax]
      rcases mem_append.mp he with hin | hin
      · exact hcs' e hin
      · exact UInt64.le_trans (hds' e hin) (UInt64.not_lt.mp hlt)

namespace Gathers

variable {s o : FieldStat} {cs ds : List Contribution}

/-- Merging statistics puts together what they have gathered. -/
theorem merge (hs : Gathers s cs) (ho : Gathers o ds) (heff : ∀ c ∈ cs, c.n ≠ 0)
    (heff' : ∀ d ∈ ds, d.n ≠ 0) (fits : countSum cs + countSum ds < 2 ^ 64) :
    Gathers (s.merge o) (cs ++ ds) := by
  by_cases hon : o.n = 0
  · have hnil := ho.eq_nil heff' hon
    subst hnil
    rwa [FieldStat.merge_absent s hon, append_nil]
  by_cases hsn : s.n = 0
  · have hnil := hs.eq_nil heff hsn
    subst hnil
    rwa [FieldStat.merge_into_absent hsn hon, nil_append]
  have hcs := hs.ne_nil hsn
  have hds := ho.ne_nil hon
  constructor
  case count =>
    have hadd := UInt64.toNat_add s.n o.n
    rw [FieldStat.merge_n hsn hon, countSum_append, hadd, hs.count, ho.count]
    exact Nat.mod_eq_of_lt fits
  case absent => exact fun h => absurd (append_eq_nil_iff.mp h).1 hcs
  case sum =>
    intro small
    rw [totalSum_append] at small ⊢
    rw [FieldStat.merge_sum hsn hon, hs.sum (by omega), ho.sum (by omega), wholeNat_add small]
  case extreme =>
    intro _ side
    apply (hs.extreme hcs side).append (ho.extreme hds side)
    intro a b ha hb hx hy
    exact FieldStat.merge_of hsn hon ha hb hx hy
  case exact =>
    intro _ hall
    have hs' := hs.exact hcs fun c hc => hall c (mem_append_left _ hc)
    have ho' := ho.exact hds fun d hd => hall d (mem_append_right _ hd)
    obtain ⟨domain, esum, emin, emax⟩ := FieldStat.merge_exact hsn hon hs'.domain ho'.domain
    exact hs'.append ho' domain esum emin emax
  case inexact =>
    rintro ⟨c, hc, hnot⟩
    apply FieldStat.merge_inexact hsn hon
    by_cases hall : ∀ c ∈ cs, c.isExact
    · have hs' := hs.exact hcs hall
      have hin : c ∈ ds := (mem_append.mp hc).resolve_left fun hin => by
        rw [hall c hin] at hnot
        cases hnot
      rw [hs'.domain, ho.inexact ⟨c, hin, hnot⟩]
      exact .inl (by decide)
    · push Not at hall
      obtain ⟨d, hd, hnot'⟩ := hall
      exact .inr (hs.inexact ⟨d, hd, by simpa using hnot'⟩)

theorem value (v : UInt64) : Gathers (FieldStat.addU64 {} v) [.value v] where
  count := rfl
  absent := fun h => absurd h (cons_ne_nil _ _)
  sum := by
    intro small
    have h := wholeNat_add (a := 0) (b := v.toNat) (by rwa [Nat.zero_add])
    rwa [Nat.zero_add] at h
  extreme := fun _ side => by
    have h := side.reached_own (.value v)
    cases side
    · exact h
    · exact h
  exact := fun _ _ => by
    refine ⟨rfl, ?_, ⟨⟨_, mem_singleton_self _, rfl⟩, ?_⟩, ⟨_, mem_singleton_self _, rfl⟩, ?_⟩
    · exact (UInt64.ofNat_toNat (x := v)).symm
    · intro c hc
      rw [mem_singleton.mp hc]
      exact UInt64.le_refl v
    · intro c hc
      rw [mem_singleton.mp hc]
      exact UInt64.le_refl v
  inexact := fun ⟨c, hc, hnot⟩ => by
    rw [mem_singleton.mp hc] at hnot
    cases hnot

variable {sum n : UInt64} {low high : Option UInt64} {side : Side}

/-- An extreme that is carried is merged. -/
theorem summaryStat_of_some {v : UInt64}
    (h : (Contribution.summary n sum low high).given side = some v) :
    side.of (summaryStat s n sum low high) = v.toFloat := by
  cases side
  · change low = some v at h
    rw [h]
    rfl
  · change high = some v at h
    rw [h]
    rfl

/-- An extreme that is not carried is taken over. -/
theorem summaryStat_of_none
    (hs : s.n ≠ 0) (h : (Contribution.summary n sum low high).given side = none) :
    side.of (summaryStat s n sum low high) = side.of s := by
  cases side
  · change low = none at h
    rw [h]
    exact if_pos hs
  · change high = none at h
    rw [h]
    exact if_pos hs

theorem summary (low high : Option UInt64) (hs : s.n = 0) :
    Gathers (summaryStat s n sum low high) [.summary n sum low high] where
  count := by
    rfl
  absent := fun h => absurd h (cons_ne_nil _ _)
  sum := fun _ => by
    rfl
  extreme := fun _ side => by
    have h := side.reached_own (.summary n sum low high)
    cases side
    · cases low
      · change Side.low.Reached (if s.n ≠ 0 then s.min else sum.toFloat) _
        rw [hs]
        exact h
      · exact h
    · cases high
      · change Side.high.Reached (if s.n ≠ 0 then s.max else sum.toFloat) _
        rw [hs]
        exact h
      · exact h
  exact := fun _ hall => absurd (hall _ (mem_singleton_self _)) Bool.false_ne_true
  inexact := fun _ => rfl

/-- A value is gathered. -/
theorem addU64 (h : Gathers s cs) (heff : ∀ c ∈ cs, c.n ≠ 0) (v : UInt64)
    (fits : countSum cs + 1 < 2 ^ 64) : Gathers (s.addU64 v) (cs ++ [.value v]) := by
  by_cases hs : s.n = 0
  · have hnil := h.eq_nil heff hs
    rw [h.absent hnil, hnil]
    exact value v
  have hcs := h.ne_nil hs
  have hone : Gathers (FieldStat.addU64 {} v) [.value v] := value v
  constructor
  case count =>
    have hadd := UInt64.toNat_add s.n 1
    rw [FieldStat.addU64_n, countSum_append, hadd, h.count]
    exact Nat.mod_eq_of_lt fits
  case absent => exact fun hnil => absurd (append_eq_nil_iff.mp hnil).1 hcs
  case sum =>
    intro small
    rw [totalSum_append] at small ⊢
    rw [FieldStat.addU64_sum, h.sum (by omega)]
    exact wholeNat_add small
  case extreme =>
    intro _ side
    apply (h.extreme hcs side).append (side.reached_own (.value v))
    intro a b ha hb hx hy
    apply FieldStat.addU64_of hs ha hb hx
    cases side
    · exact hy
    · exact hy
  case exact =>
    intro _ hall
    have hs' := h.exact hcs fun c hc => hall c (mem_append_left _ hc)
    have hv := hone.exact (cons_ne_nil _ _) fun c hc => hall c (mem_append_right _ hc)
    obtain ⟨domain, esum, emin, emax⟩ := FieldStat.addU64_exact hs v hs'.domain
    exact hs'.append hv domain esum emin emax
  case inexact =>
    rintro ⟨c, hc, hnot⟩
    apply FieldStat.addU64_inexact hs
    rcases mem_append.mp hc with hin | hlast
    · exact h.inexact ⟨c, hin, hnot⟩
    · rw [mem_singleton.mp hlast] at hnot
      cases hnot

/-- A summary is gathered, whatever it takes over from the statistic. -/
theorem mergeSummary (h : Gathers s cs) (heff : ∀ c ∈ cs, c.n ≠ 0)
    (low high : Option UInt64) (hn : n ≠ 0) (fits : countSum cs + n.toNat < 2 ^ 64) :
    Gathers (s.merge (summaryStat s n sum low high)) (cs ++ [.summary n sum low high]) := by
  have hon : (summaryStat s n sum low high).n ≠ 0 := hn
  by_cases hs : s.n = 0
  · have hnil := h.eq_nil heff hs
    rw [FieldStat.merge_into_absent hs hon, hnil]
    exact summary low high hs
  have hcs := h.ne_nil hs
  constructor
  case count =>
    have hadd := UInt64.toNat_add s.n n
    rw [FieldStat.merge_n hs hon, countSum_append]
    refine hadd.trans ?_
    rw [h.count]
    exact Nat.mod_eq_of_lt fits
  case absent => exact fun hnil => absurd (append_eq_nil_iff.mp hnil).1 hcs
  case sum =>
    intro small
    rw [totalSum_append] at small ⊢
    rw [FieldStat.merge_sum hs hon, h.sum (by omega)]
    exact wholeNat_add small
  case extreme =>
    intro _ side
    have hreached := h.extreme hcs side
    cases hgiven : (Contribution.summary n sum low high).given side with
    | none =>
      have hsame : side.of (s.merge (summaryStat s n sum low high)) = side.of s := by
        obtain ⟨m, hm, hx, _⟩ := hreached
        rw [FieldStat.merge_of hs hon hm hm hx (summaryStat_of_none hs hgiven ▸ hx),
          side.pick_self, hx]
      rw [hsame]
      exact hreached.weaken hgiven
    | some v =>
      have hown : (Contribution.summary n sum low high).own side = v.toNat := by
        rw [own, hgiven, Option.getD_some]
      apply hreached.append (side.reached_own (.summary n sum low high))
      intro a b ha hb hx hy
      apply FieldStat.merge_of hs hon ha hb hx
      rw [summaryStat_of_some hgiven, ← hy, hown, toFloat_eq_wholeNat]
  case exact =>
    exact fun _ hall => absurd (hall _ (mem_append_right _ (mem_singleton_self _)))
      Bool.false_ne_true
  case inexact =>
    intro _
    apply FieldStat.merge_inexact hs hon
    by_cases hdomain : s.domain = .F64
    · exact .inr hdomain
    · exact .inl hdomain

end Gathers

/-! ## Runs -/

variable {c : Contribution}

/-- A summary that counts nothing changes nothing. -/
theorem addTo_ineffective (s : FieldStat) (hc : c.n = 0) : addTo s c = s := by
  cases c with
  | value v => exact absurd (show (1 : UInt64) = 0 from hc) (by decide)
  | summary n sum low high => exact FieldStat.merge_absent s hc

theorem foldl_addTo_effective (s : FieldStat) (cs : List Contribution) :
    (effective cs).foldl addTo s = cs.foldl addTo s := by
  induction cs generalizing s with
  | nil => rfl
  | cons c cs ih =>
    by_cases hc : c.n = 0
    · rw [effective, filter_cons_of_neg (by simp [hc]), foldl_cons,
        addTo_ineffective s hc]
      exact ih s
    · rw [effective, filter_cons_of_pos (by simp [hc])]
      exact ih _

theorem effective_spec : ∀ c ∈ effective cs, c.n ≠ 0 := by
  intro c hc
  simpa using of_mem_filter hc

namespace Gathers

variable {s : FieldStat} {cs : List Contribution}

/-- A contribution that counts is gathered. -/
theorem addTo (h : Gathers s cs) (heff : ∀ c ∈ cs, c.n ≠ 0) {c : Contribution} (hc : c.n ≠ 0)
    (fits : countSum (cs ++ [c]) < 2 ^ 64) : Gathers (addTo s c) (cs ++ [c]) := by
  rw [countSum_append] at fits
  cases c with
  | value v => exact h.addU64 heff v fits
  | summary n sum low high => exact h.mergeSummary heff low high hc fits

/-- A run gathers the contributions that count. -/
theorem run (h : Gathers s cs) (heff : ∀ c ∈ cs, c.n ≠ 0) {ds : List Contribution}
    (heff' : ∀ d ∈ ds, d.n ≠ 0) (fits : countSum (cs ++ ds) < 2 ^ 64) :
    Gathers (ds.foldl Contribution.addTo s) (cs ++ ds) := by
  induction ds generalizing s cs with
  | nil => rwa [append_nil]
  | cons d ds ih =>
    rw [append_cons] at fits ⊢
    have hd := heff' d mem_cons_self
    rw [countSum_append] at fits
    apply ih (h.addTo heff hd (by omega))
    · intro e he
      rcases mem_append.mp he with hin | hlast
      · exact heff e hin
      · rwa [mem_singleton.mp hlast]
    · exact fun e he => heff' e (mem_cons_of_mem d he)
    · rwa [countSum_append]

end Gathers

theorem addTo_n (hs : s.n ≠ 0) (hc : c.n ≠ 0) : (addTo s c).n = s.n + c.n := by
  cases c with
  | value v => exact FieldStat.addU64_n v
  | summary n sum low high => exact FieldStat.merge_n hs hc

/-- A contribution moves an extreme by the one that it carries. -/
theorem addTo_of (hs : s.n ≠ 0) (hc : c.n ≠ 0) (hm : m < 2 ^ 64) (hof : side.of s = wholeNat m) :
    side.of (addTo s c) = wholeNat ((c.given side).elim m fun v => side.pick m v.toNat) := by
  cases c with
  | value v =>
    exact FieldStat.addU64_of hs hm (UInt64.toNat_lt v) hof rfl
  | summary n sum low high =>
    have hon : (summaryStat s n sum low high).n ≠ 0 := hc
    cases hgiven : (Contribution.summary n sum low high).given side with
    | none =>
      rw [addTo, FieldStat.merge_of hs hon hm hm hof
        ((Gathers.summaryStat_of_none hs hgiven).trans hof), side.pick_self]
      rfl
    | some v =>
      exact FieldStat.merge_of hs hon hm (UInt64.toNat_lt v) hof
        (Gathers.summaryStat_of_some hgiven)

/-- In a run an extreme goes through the contributions from where it starts. -/
theorem foldl_addTo_of (hs : s.n ≠ 0) (hm : m < 2 ^ 64) (hof : side.of s = wholeNat m)
    (heff : ∀ c ∈ cs, c.n ≠ 0) (fits : s.n.toNat + countSum cs < 2 ^ 64) :
    side.of (cs.foldl addTo s)
      = wholeNat (cs.foldl (fun m c => (c.given side).elim m fun v => side.pick m v.toNat) m) := by
  induction cs generalizing s m with
  | nil => exact hof
  | cons c cs ih =>
    have hc := heff c mem_cons_self
    have hsum : countSum (c :: cs) = c.n.toNat + countSum cs := sum_cons
    have hn := addTo_n hs hc
    have hcount := UInt64.toNat_add s.n c.n
    have hpos : 0 < s.n.toNat := Nat.pos_of_ne_zero fun hz => hs (UInt64.toNat_inj.mp hz)
    rw [foldl_cons, foldl_cons]
    apply ih
    · intro hz
      rw [hn] at hz
      rw [hz] at hcount
      have hzero : (0 : UInt64).toNat = 0 := rfl
      omega
    · cases c.given side with
      | none => exact hm
      | some v =>
        rcases side.pick_cases m v.toNat with h | h
        · rw [Option.elim_some, h]
          exact hm
        · rw [Option.elim_some, h]
          exact UInt64.toNat_lt v
    · exact addTo_of hs hc hm hof
    · exact fun d hd => heff d (mem_cons_of_mem c hd)
    · rw [hn]
      omega

/-- A run from nothing starts with its first contribution. -/
theorem run_of (heff : ∀ d ∈ c :: cs, d.n ≠ 0) (fits : countSum (c :: cs) < 2 ^ 64) :
    side.of ((c :: cs).foldl addTo {}) = wholeNat (side.start c (c :: cs)) := by
  have hc := heff c mem_cons_self
  have hsum : countSum (c :: cs) = c.n.toNat + countSum cs := sum_cons
  have hone : Gathers (addTo {} c) [c] :=
    Gathers.empty.addTo (fun d hd => absurd hd not_mem_nil) hc
      (UInt64.toNat_lt _)
  have hcount := hone.count
  rw [countSum_singleton] at hcount
  have hn : (addTo {} c).n ≠ 0 := by
    intro hz
    rw [hz] at hcount
    exact hc (UInt64.toNat_inj.mp hcount.symm)
  have hown : side.of (addTo {} c) = wholeNat (c.own side) := by
    cases c with
    | value v => cases side <;> rfl
    | summary n sum low high =>
      rw [addTo, FieldStat.merge_into_absent rfl hc]
      cases side
      · cases low <;> rfl
      · cases high <;> rfl
  have hself : (c.given side).elim (c.own side) (fun v => side.pick (c.own side) v.toNat)
      = c.own side := by
    cases hgiven : c.given side with
    | none => rfl
    | some v =>
      rw [own, hgiven]
      exact side.pick_self v.toNat
  rw [foldl_cons, foldl_addTo_of hn (side.own_lt c) hown
    (fun d hd => heff d (mem_cons_of_mem c hd)) (by omega), Side.start,
    foldl_cons, hself]

/-- The sum and the extremes of a statistic, exact where it has them exactly. -/
inductive Totals
  | exact (total min max : UInt64)
  | rounded (total min max : Float)

/-- What is read from a statistic. -/
structure StatReading where
  count : UInt64
  totals : Totals

/-- Read a statistic. -/
def FieldStat.reading (s : FieldStat) : StatReading where
  count := s.n
  totals := if s.domain = .F64 then .rounded s.sum s.min s.max else .exact s.esum s.emin s.emax

/-- No overflow: the counts fit into 64 bits, and sums of doubles are exact. -/
def Fits (cs : List Contribution) : Prop :=
  countSum cs < 2 ^ 64 ∧ ((∃ c ∈ cs, c.isExact = false) → totalSum cs < 2 ^ 53)

/-- Whichever contribution comes first, the same extremes are reached. -/
def Settled (cs : List Contribution) : Prop :=
  (∃ c ∈ cs, c.isExact = false) →
    ∀ side : Side, ∀ c ∈ cs, ∀ d ∈ cs, wholeNat (side.start c cs) = wholeNat (side.start d cs)

/-- Of settled contributions all statistics read alike. -/
theorem Gathers.reading_eq (hs : Gathers s cs)
    (ht : Gathers t cs) (fits : Fits cs) (settled : Settled cs) : s.reading = t.reading := by
  by_cases hnil : cs = []
  · rw [hs.absent hnil, ht.absent hnil]
  have hcount : s.n = t.n := UInt64.toNat_inj.mp (hs.count.trans ht.count.symm)
  by_cases hall : ∀ c ∈ cs, c.isExact
  · have hs' := hs.exact hnil hall
    have ht' := ht.exact hnil hall
    have hmin : s.emin = t.emin := by
      obtain ⟨⟨c, hc, hcmin⟩, hcs⟩ := hs'.emin
      obtain ⟨⟨d, hd, hdmin⟩, hds⟩ := ht'.emin
      apply UInt64.le_antisymm
      · rw [hdmin]
        exact hcs d hd
      · rw [hcmin]
        exact hds c hc
    have hmax : s.emax = t.emax := by
      obtain ⟨⟨c, hc, hcmax⟩, hcs⟩ := hs'.emax
      obtain ⟨⟨d, hd, hdmax⟩, hds⟩ := ht'.emax
      apply UInt64.le_antisymm
      · rw [hcmax]
        exact hds c hc
      · rw [hdmax]
        exact hcs d hd
    unfold FieldStat.reading
    rw [hs'.domain, ht'.domain, hcount, hs'.esum, ht'.esum, hmin, hmax]
    rfl
  · push Not at hall
    obtain ⟨c, hc, hnot⟩ := hall
    have hinexact : ∃ c ∈ cs, c.isExact = false := ⟨c, hc, by simpa using hnot⟩
    have hof (side : Side) : side.of s = side.of t := by
      obtain ⟨d, hd, hsd⟩ := (hs.extreme hnil side).eq_start
      obtain ⟨e, he, hte⟩ := (ht.extreme hnil side).eq_start
      rw [hsd, hte]
      exact settled hinexact side d hd e he
    have hsum := fits.2 hinexact
    have hmin : s.min = t.min := hof .low
    have hmax : s.max = t.max := hof .high
    unfold FieldStat.reading
    rw [hs.inexact hinexact, ht.inexact hinexact, hcount, hs.sum hsum, ht.sum hsum, hmin, hmax]
    rfl

/-- The order of the others does not matter to where a contribution leads. -/
theorem Side.start_perm (side : Side) (c : Contribution)
    (h : cs.Perm ds) : side.start c cs = side.start c ds := by
  have : RightCommutative fun m (d : Contribution) =>
      (d.given side).elim m fun v => side.pick m v.toNat := ⟨by
    intro m d e
    cases d.given side with
    | none => rfl
    | some v =>
      cases e.given side with
      | none => rfl
      | some w => exact side.pick_right_comm m v.toNat w.toNat⟩
  exact h.foldl_eq _

/-- Statistics without exact values that read alike have the same extremes. -/
theorem FieldStat.of_eq_of_reading (hs : s.domain = .F64)
    (ht : t.domain = .F64) (h : s.reading = t.reading) (side : Side) : side.of s = side.of t := by
  have htotals := congrArg StatReading.totals h
  rw [reading, reading, if_pos hs, if_pos ht] at htotals
  injection htotals with _ hmin hmax
  cases side
  · exact hmin
  · exact hmax

end DFTracer.Aggregation
