/-
# Timestamp histograms that are stored

A histogram of timestamps with counts of 64 bits. It is built by adding timestamps, by merging
other histograms and by being stored and read again. What it says is what the timestamps say that
were added anywhere on the way, as long as there are fewer than 2^64 of them.
-/

import DFTracer.Math.Varint
import DFTracer.Math.Lists

namespace DFTracer.Indexing

open Math List

/-- Sparse bins, each with its index and its count. -/
structure StoredHistogram where
  bins : List (UInt64 × UInt64) := []
  totalCount : UInt64 := 0
  deriving DecidableEq

namespace StoredHistogram

/-- `BIN_WIDTH_US`. -/
def BIN_WIDTH_US : UInt64 := 100000

def binIndex (timestamp : UInt64) : UInt64 := timestamp / BIN_WIDTH_US

/-- Count the bin of an index, which is inserted where it is missing. -/
def insertBin (idx : UInt64) : List (UInt64 × UInt64) → List (UInt64 × UInt64)
  | [] => [(idx, 1)]
  | (i, count) :: rest =>
    if i < idx then (i, count) :: insertBin idx rest
    else if i = idx then (i, count + 1) :: rest
    else (idx, 1) :: (i, count) :: rest

def add (h : StoredHistogram) (timestamp : UInt64) : StoredHistogram where
  bins := insertBin (binIndex timestamp) h.bins
  totalCount := h.totalCount + 1

/-- The bins of both lists in order. -/
def mergeBins : List (UInt64 × UInt64) → List (UInt64 × UInt64) → List (UInt64 × UInt64)
  | [], bs => bs
  | as, [] => as
  | (i, m) :: as, (j, n) :: bs =>
    if i < j then (i, m) :: mergeBins as ((j, n) :: bs)
    else if j < i then (j, n) :: mergeBins ((i, m) :: as) bs
    else (i, m + n) :: mergeBins as bs
termination_by as bs => as.length + bs.length

def merge (h other : StoredHistogram) : StoredHistogram :=
  if other.bins = [] then h
  else { bins := mergeBins h.bins other.bins, totalCount := h.totalCount + other.totalCount }

/-- The bins from one index to another. -/
def window (first last : UInt64) (bins : List (UInt64 × UInt64)) : List (UInt64 × UInt64) :=
  (bins.dropWhile fun bin => bin.1 < first).takeWhile fun bin => bin.1 ≤ last

/-- Counts summed up. -/
def countSum (bins : List (UInt64 × UInt64)) : UInt64 :=
  bins.foldl (fun sum bin => sum + bin.2) 0

def countInRange (h : StoredHistogram) (start stop : UInt64) : UInt64 :=
  if h.bins = [] ∨ start ≥ stop then 0
  else countSum (window (binIndex start) (binIndex (stop - 1)) h.bins)

/-- Each bin as the distance to the one before and its count. -/
def writeBins (prevIdx : UInt64) : List (UInt64 × UInt64) → List UInt8
  | [] => []
  | (idx, count) :: rest =>
    Varint.write (idx - prevIdx).toNat ++ Varint.write count.toNat ++ writeBins idx rest

def serialize (h : StoredHistogram) : List UInt8 :=
  Varint.write h.totalCount.toNat ++ Varint.write h.bins.length ++ writeBins 0 h.bins

/-- Read up to a number of bins, as long as the bytes last. -/
def readBins : Nat → UInt64 → List UInt8 → List (UInt64 × UInt64)
  | 0, _, _ => []
  | numBins + 1, prevIdx, data =>
    if data = [] then []
    else
      let (delta, data) := Varint.read data
      let (count, data) := Varint.read data
      let idx := prevIdx + UInt64.ofNat delta
      (idx, UInt64.ofNat count) :: readBins numBins idx data

def deserialize (data : List UInt8) : StoredHistogram :=
  if data = [] then {}
  else
    let (totalCount, data) := Varint.read data
    let (numBins, data) := Varint.read data
    { bins := readBins numBins 0 data, totalCount := UInt64.ofNat totalCount }

theorem readBins_writeBins (bins : List (UInt64 × UInt64)) (prevIdx : UInt64) :
    readBins bins.length prevIdx (writeBins prevIdx bins) = bins := by
  induction bins generalizing prevIdx with
  | nil => rfl
  | cons bin rest ih =>
    obtain ⟨idx, count⟩ := bin
    have some : writeBins prevIdx ((idx, count) :: rest) ≠ [] := by
      rw [writeBins, append_assoc]
      exact append_ne_nil_of_left_ne_nil (Varint.write_ne_nil _) _
    rw [length_cons, readBins, if_neg some, writeBins, append_assoc,
      Varint.read_write (UInt64.toNat_lt _)]
    dsimp only
    rw [Varint.read_write (UInt64.toNat_lt _)]
    rw [UInt64.ofNat_toNat, UInt64.ofNat_toNat, show prevIdx + (idx - prevIdx) = idx by grind, ih]

/-- A histogram is read again as it was. -/
theorem deserialize_serialize (h : StoredHistogram) (few : h.bins.length < 2 ^ 64) :
    deserialize h.serialize = h := by
  have some : h.serialize ≠ [] := by
    rw [serialize, append_assoc]
    exact append_ne_nil_of_left_ne_nil (Varint.write_ne_nil _) _
  rw [deserialize, if_neg some, serialize, append_assoc, Varint.read_write (UInt64.toNat_lt _)]
  dsimp only
  rw [Varint.read_write few]
  rw [readBins_writeBins, UInt64.ofNat_toNat]

/-- How a histogram came to be. -/
inductive History where
  | empty
  | add (h : History) (timestamp : UInt64)
  | merge (h other : History)
  | reload (h : History)

/-- The histogram of a history. -/
def History.run : History → StoredHistogram
  | .empty => {}
  | .add h timestamp => h.run.add timestamp
  | .merge h other => h.run.merge other.run
  | .reload h => deserialize h.run.serialize

/-- The timestamps that were added on the way. -/
def History.added : History → List UInt64
  | .empty => []
  | .add h timestamp => h.added ++ [timestamp]
  | .merge h other => h.added ++ other.added
  | .reload h => h.added

/-- The count that bins hold for an index. -/
def countAt (i : UInt64) : List (UInt64 × UInt64) → UInt64
  | [] => 0
  | bin :: rest => if bin.1 = i then bin.2 + countAt i rest else countAt i rest

/-- A histogram holds timestamps: its bins are those of the timestamps, in order, and its counts
are right up to the size of a counter. -/
structure Holding (h : StoredHistogram) (added : List UInt64) : Prop where
  sorted : h.bins.Pairwise (·.1 < ·.1)
  occupied : ∀ i, i ∈ h.bins.map Prod.fst ↔ i ∈ added.map binIndex
  counts : ∀ i, countAt i h.bins = UInt64.ofNat (added.countP fun ts => binIndex ts = i)
  total : h.totalCount = UInt64.ofNat added.length

theorem countAt_cons (i : UInt64) (bin : UInt64 × UInt64) (rest : List (UInt64 × UInt64)) :
    countAt i (bin :: rest) = (if bin.1 = i then bin.2 else 0) + countAt i rest := by
  rw [countAt]
  split
  · rfl
  · rw [UInt64.zero_add]

theorem mem_fst_insertBin (idx i : UInt64) (bins : List (UInt64 × UInt64)) :
    i ∈ (insertBin idx bins).map Prod.fst ↔ i ∈ bins.map Prod.fst ∨ i = idx := by
  induction bins with
  | nil => simp [insertBin]
  | cons bin rest ih =>
    rw [insertBin]
    split
    · rw [map_cons, mem_cons, ih, map_cons, mem_cons, or_assoc]
    · split
      · rename_i here
        simp only [map_cons, mem_cons, here]
        tauto
      · simp only [map_cons, mem_cons]
        tauto

variable {bins : List (UInt64 × UInt64)} {h : StoredHistogram} {added : List UInt64}

theorem sorted_insertBin (idx : UInt64)
    (sorted : bins.Pairwise (·.1 < ·.1)) : (insertBin idx bins).Pairwise (·.1 < ·.1) := by
  induction bins with
  | nil => exact pairwise_singleton _ _
  | cons head rest ih =>
    obtain ⟨above, tail⟩ := pairwise_cons.mp sorted
    rw [insertBin]
    split
    · rename_i before
      apply List.Pairwise.cons _ (ih tail)
      intro bin listed
      rcases (mem_fst_insertBin idx bin.1 rest).mp (mem_map_of_mem listed) with old | new
      · obtain ⟨bin', listed', same⟩ := mem_map.mp old
        exact same ▸ above bin' listed'
      · exact new ▸ before
    · split
      · exact pairwise_cons.mpr ⟨above, tail⟩
      · rename_i notBefore notHere
        have first : idx < head.1 := by grind
        apply List.Pairwise.cons _ sorted
        intro bin listed
        rcases mem_cons.mp listed with rfl | later
        · exact first
        · exact UInt64.lt_trans first (above bin later)

theorem countAt_insertBin (idx i : UInt64) (bins : List (UInt64 × UInt64)) :
    countAt i (insertBin idx bins) = countAt i bins + if idx = i then 1 else 0 := by
  induction bins with
  | nil =>
    rw [insertBin, countAt_cons]
    exact UInt64.add_comm _ _
  | cons bin rest ih =>
    rw [insertBin]
    split
    · rw [countAt_cons, ih, countAt_cons, UInt64.add_assoc]
    · split
      · rename_i here
        rw [countAt_cons, countAt_cons]
        split
        · grind
        · grind
      · rw [countAt_cons]
        exact UInt64.add_comm _ _

theorem Holding.add (holding : h.Holding added)
    (timestamp : UInt64) : (h.add timestamp).Holding (added ++ [timestamp]) where
  sorted := sorted_insertBin _ holding.sorted
  occupied := by
    intro i
    rw [StoredHistogram.add, mem_fst_insertBin, holding.occupied, map_append, mem_append,
      map_singleton, mem_singleton]
  counts := by
    intro i
    rw [StoredHistogram.add, countAt_insertBin, holding.counts, countP_append,
      countP_singleton, UInt64.ofNat_add]
    congr 1
    by_cases here : binIndex timestamp = i <;> simp [here]
  total := by
    rw [StoredHistogram.add, holding.total, length_append, UInt64.ofNat_add]
    rfl

theorem mergeBins_nil (as : List (UInt64 × UInt64)) : mergeBins as [] = as := by
  cases as with
  | nil => rw [mergeBins]
  | cons a as => rw [mergeBins]; exact fun h => absurd h (cons_ne_nil _ _)

theorem mem_fst_mergeBins (i : UInt64) (as bs : List (UInt64 × UInt64)) :
    i ∈ (mergeBins as bs).map Prod.fst ↔ i ∈ as.map Prod.fst ∨ i ∈ bs.map Prod.fst := by
  induction as, bs using mergeBins.induct with
  | case1 bs => simp [mergeBins]
  | case2 as _ => simp [mergeBins_nil]
  | case3 i' m as j n bs before ih =>
    rw [mergeBins, if_pos before, map_cons, mem_cons, ih]
    simp only [map_cons, mem_cons]
    tauto
  | case4 i' m as j n bs notBefore after ih =>
    rw [mergeBins, if_neg notBefore, if_pos after, map_cons, mem_cons, ih]
    simp only [map_cons, mem_cons]
    tauto
  | case5 i' m as j n bs notBefore notAfter ih =>
    have same : i' = j := by grind
    rw [mergeBins, if_neg notBefore, if_neg notAfter]
    simp only [map_cons, mem_cons, same]
    tauto

theorem sorted_mergeBins {as bs : List (UInt64 × UInt64)} (sortedA : as.Pairwise (·.1 < ·.1))
    (sortedB : bs.Pairwise (·.1 < ·.1)) : (mergeBins as bs).Pairwise (·.1 < ·.1) := by
  have above {low : UInt64} {as bs : List (UInt64 × UInt64)} (ha : ∀ a ∈ as, low < a.1)
      (hb : ∀ b ∈ bs, low < b.1) : ∀ c ∈ mergeBins as bs, low < c.1 := by
    intro c listed
    rcases (mem_fst_mergeBins c.1 as bs).mp (mem_map_of_mem listed) with old | old
    · obtain ⟨a, ha', same⟩ := mem_map.mp old
      exact same ▸ ha a ha'
    · obtain ⟨b, hb', same⟩ := mem_map.mp old
      exact same ▸ hb b hb'
  induction as, bs using mergeBins.induct with
  | case1 bs =>
    rw [mergeBins]
    exact sortedB
  | case2 as _ =>
    rw [mergeBins_nil]
    exact sortedA
  | case3 i m as j n bs before ih =>
    rw [mergeBins, if_pos before]
    obtain ⟨aboveA, tailA⟩ := pairwise_cons.mp sortedA
    apply List.Pairwise.cons _ (ih tailA sortedB)
    apply above aboveA
    intro b listed
    rcases mem_cons.mp listed with rfl | later
    · exact before
    · exact UInt64.lt_trans before ((pairwise_cons.mp sortedB).1 b later)
  | case4 i m as j n bs notBefore after ih =>
    rw [mergeBins, if_neg notBefore, if_pos after]
    obtain ⟨aboveB, tailB⟩ := pairwise_cons.mp sortedB
    apply List.Pairwise.cons _ (ih sortedA tailB)
    apply above _ aboveB
    intro a listed
    rcases mem_cons.mp listed with rfl | later
    · exact after
    · exact UInt64.lt_trans after ((pairwise_cons.mp sortedA).1 a later)
  | case5 i m as j n bs notBefore notAfter ih =>
    have same : i = j := by grind
    rw [mergeBins, if_neg notBefore, if_neg notAfter]
    obtain ⟨aboveA, tailA⟩ := pairwise_cons.mp sortedA
    obtain ⟨aboveB, tailB⟩ := pairwise_cons.mp sortedB
    exact List.Pairwise.cons (above aboveA (same ▸ aboveB)) (ih tailA tailB)

theorem countAt_mergeBins (i : UInt64) (as bs : List (UInt64 × UInt64)) :
    countAt i (mergeBins as bs) = countAt i as + countAt i bs := by
  induction as, bs using mergeBins.induct with
  | case1 bs => simp [mergeBins, countAt]
  | case2 as _ => simp [mergeBins_nil, countAt]
  | case3 i' m as j n bs before ih =>
    rw [mergeBins, if_pos before, countAt_cons, ih, countAt_cons i (i', m), UInt64.add_assoc]
  | case4 i' m as j n bs notBefore after ih =>
    rw [mergeBins, if_neg notBefore, if_pos after, countAt_cons, ih, countAt_cons i (j, n)]
    ac_rfl
  | case5 i' m as j n bs notBefore notAfter ih =>
    have same : i' = j := by grind
    rw [mergeBins, if_neg notBefore, if_neg notAfter, countAt_cons, ih, countAt_cons,
      countAt_cons i (j, n), same]
    split
    · ac_rfl
    · ac_rfl

theorem Holding.merge {other : StoredHistogram} {added' : List UInt64}
    (holding : h.Holding added) (holding' : other.Holding added') :
    (h.merge other).Holding (added ++ added') := by
  rw [StoredHistogram.merge]
  split
  · rename_i none
    have nothing : added' = [] := by
      apply eq_nil_iff_forall_not_mem.mpr
      intro ts listed
      have occupied := (holding'.occupied _).mpr (mem_map_of_mem (f := binIndex) listed)
      rw [none] at occupied
      exact not_mem_nil occupied
    rw [nothing, append_nil]
    exact holding
  · exact {
      sorted := sorted_mergeBins holding.sorted holding'.sorted
      occupied := by
        intro i
        rw [mem_fst_mergeBins, holding.occupied, holding'.occupied, map_append, mem_append]
      counts := by
        intro i
        rw [countAt_mergeBins, holding.counts, holding'.counts, countP_append, UInt64.ofNat_add]
      total := by
        rw [holding.total, holding'.total, length_append, UInt64.ofNat_add] }

theorem toNat_binIndex (timestamp : UInt64) : (binIndex timestamp).toNat = timestamp.toNat / 100000 :=
  UInt64.toNat_div _ _

/-- There are fewer bins than there are 64-bit numbers. -/
theorem Holding.length_bins_lt (holding : h.Holding added) : h.bins.length < 2 ^ 64 := by
  have distinct : (h.bins.map fun bin => bin.1.toNat).Nodup := by
    apply pairwise_map.mpr
    apply holding.sorted.imp
    intro a b lt
    exact Nat.ne_of_lt (UInt64.lt_iff_toNat_lt.mp lt)
  have inside : (h.bins.map fun bin => bin.1.toNat) ⊆ List.range (2 ^ 64 / 100000 + 1) := by
    intro n listed
    obtain ⟨bin, hbin, rfl⟩ := mem_map.mp listed
    obtain ⟨ts, _, same⟩ :=
      mem_map.mp ((holding.occupied bin.1).mp (mem_map_of_mem hbin))
    rw [← same, toNat_binIndex, mem_range]
    have := ts.toNat_lt
    omega
  have few := (subperm_of_subset distinct inside).length_le
  rw [length_map, length_range] at few
  omega

/-- Whatever its history, a histogram holds the timestamps that were added. -/
theorem History.holding (h : History) : h.run.Holding h.added := by
  induction h with
  | empty => exact ⟨List.Pairwise.nil, fun _ => Iff.rfl, fun _ => rfl, rfl⟩
  | add h timestamp ih => exact ih.add timestamp
  | merge h other ih ih' => exact ih.merge ih'
  | reload h ih =>
    rw [run, deserialize_serialize _ ih.length_bins_lt]
    exact ih

/-! ## Counts -/

/-- In a sorted list the bins from one index to another are next to each other. -/
theorem window_eq_filter (first last : UInt64) (sorted : bins.Pairwise (·.1 < ·.1)) :
    window first last bins = bins.filter fun bin => first ≤ bin.1 ∧ bin.1 ≤ last := by
  have upTo {bins : List (UInt64 × UInt64)} (sorted : bins.Pairwise (·.1 < ·.1))
      (above : ∀ bin ∈ bins, first ≤ bin.1) : (bins.takeWhile fun bin => bin.1 ≤ last)
        = bins.filter fun bin => first ≤ bin.1 ∧ bin.1 ≤ last := by
    induction bins with
    | nil => rfl
    | cons bin rest ih =>
      obtain ⟨later, tail⟩ := pairwise_cons.mp sorted
      have here := above bin mem_cons_self
      by_cases inside : bin.1 ≤ last
      · rw [takeWhile_cons_of_pos (by simpa using inside),
          filter_cons_of_pos (by simp [here, inside]),
          ih tail fun b hb => above b (mem_cons_of_mem _ hb)]
      · rw [takeWhile_cons_of_neg (by simpa using inside)]
        symm
        apply filter_eq_nil_iff.mpr
        intro b listed both
        have below : b.1 ≤ last := by simpa using (of_decide_eq_true both).2
        rcases mem_cons.mp listed with rfl | after
        · exact inside below
        · exact inside (UInt64.le_trans (UInt64.le_of_lt (later b after)) below)
  induction bins with
  | nil => rfl
  | cons bin rest ih =>
    obtain ⟨later, tail⟩ := pairwise_cons.mp sorted
    by_cases before : bin.1 < first
    · have out : ¬ first ≤ bin.1 := UInt64.not_le.mpr before
      rw [window, dropWhile_cons_of_pos (by simpa using before),
        filter_cons_of_neg (by simp [out])]
      exact ih tail
    · have here : first ≤ bin.1 := UInt64.not_lt.mp before
      rw [window, dropWhile_cons_of_neg (by simpa using before)]
      apply upTo sorted
      intro b listed
      rcases mem_cons.mp listed with rfl | after
      · exact here
      · exact UInt64.le_trans here (UInt64.le_of_lt (later b after))

theorem toNat_countSum (fits : (bins.map fun bin => bin.2.toNat).sum < 2 ^ 64) :
    (countSum bins).toNat = (bins.map fun bin => bin.2.toNat).sum := by
  have from_ {bins : List (UInt64 × UInt64)} {sum : UInt64}
      (fits : sum.toNat + (bins.map fun bin => bin.2.toNat).sum < 2 ^ 64) :
      (bins.foldl (fun sum bin => sum + bin.2) sum).toNat
        = sum.toNat + (bins.map fun bin => bin.2.toNat).sum := by
    induction bins generalizing sum with
    | nil => rfl
    | cons bin rest ih =>
      rw [map_cons, sum_cons] at fits ⊢
      have step : (sum + bin.2).toNat = sum.toNat + bin.2.toNat := by
        rw [UInt64.toNat_add]
        omega
      rw [foldl_cons, ih]
      · omega
      · omega
  rw [countSum, from_]
  · exact Nat.zero_add _
  · rw [show (0 : UInt64).toNat = 0 from rfl]
    omega

/-- The timestamps whose bin meets a range. -/
def enclosed (start stop : UInt64) (timestamp : UInt64) : Bool :=
  decide (start < stop) && decide (binIndex start ≤ binIndex timestamp) &&
    decide (binIndex timestamp ≤ binIndex (stop - 1))

/-- A histogram says what the timestamps say: its bins are in order, their counts sum up to the
total, each is that of its timestamps, and the count of a range lies between the timestamps in the
range and those in its bins. -/
structure Faithful (h : StoredHistogram) (added : List UInt64) : Prop where
  sorted : h.bins.Pairwise (·.1 < ·.1)
  total : (h.bins.map fun bin => bin.2.toNat).sum = h.totalCount.toNat
  counts : ∀ i, (countAt i h.bins).toNat = added.countP fun ts => binIndex ts = i
  covers : ∀ start stop,
    (added.countP fun ts => start ≤ ts ∧ ts < stop) ≤ (h.countInRange start stop).toNat
  within : ∀ start stop, (h.countInRange start stop).toNat ≤ added.countP (enclosed start stop)

section Few

variable {h : StoredHistogram} {added : List UInt64}

theorem Holding.toNat_countAt (holding : h.Holding added) (few : added.length < 2 ^ 64)
    (i : UInt64) : (countAt i h.bins).toNat = added.countP fun ts => binIndex ts = i := by
  rw [holding.counts, UInt64.toNat_ofNat', Nat.mod_eq_of_lt]
  exact Nat.lt_of_le_of_lt countP_le_length few

theorem nodup_fst (sorted : h.bins.Pairwise (·.1 < ·.1)) : (h.bins.map Prod.fst).Nodup :=
  pairwise_map.mpr (sorted.imp fun lt => UInt64.ne_of_lt lt)

/-- A bin of a sorted list has the count of its index. -/
theorem countAt_of_mem {bins : List (UInt64 × UInt64)} (distinct : (bins.map Prod.fst).Nodup)
    {bin : UInt64 × UInt64} (listed : bin ∈ bins) : countAt bin.1 bins = bin.2 := by
  have absent {i : UInt64} {bins : List (UInt64 × UInt64)} (out : i ∉ bins.map Prod.fst) :
      countAt i bins = 0 := by
    induction bins with
    | nil => rfl
    | cons bin rest ih =>
      rw [map_cons, mem_cons, not_or] at out
      rw [countAt, if_neg fun eq => out.1 eq.symm, ih out.2]
  induction bins with
  | nil => exact absurd listed not_mem_nil
  | cons head rest ih =>
    obtain ⟨new, distinct⟩ := nodup_cons.mp distinct
    rcases mem_cons.mp listed with rfl | later
    · rw [countAt, if_pos rfl, absent new, UInt64.add_zero]
    · have other : head.1 ≠ bin.1 := fun eq => new (eq ▸ mem_map_of_mem later)
      rw [countAt, if_neg other, ih distinct later]

/-- The counts of some of the bins are those of the timestamps in them. -/
theorem Holding.sum_filter (holding : h.Holding added) (few : added.length < 2 ^ 64)
    (p : UInt64 → Bool) : ((h.bins.filter fun bin => p bin.1).map fun bin => bin.2.toNat).sum
      = added.countP fun ts => p (binIndex ts) := by
  have distinct := nodup_fst holding.sorted
  have keys : (h.bins.filter fun bin => p bin.1).map Prod.fst = (h.bins.map Prod.fst).filter p :=
    (filter_map ..).symm
  have own : (h.bins.filter fun bin => p bin.1).map (fun bin => bin.2.toNat)
      = ((h.bins.map Prod.fst).filter p).map fun i => added.countP fun ts => binIndex ts = i := by
    rw [← keys, map_map]
    apply map_congr_left
    intro bin listed
    have := countAt_of_mem distinct (mem_of_mem_filter listed)
    rw [← this]
    exact holding.toNat_countAt few bin.1
  rw [own, Math.sum_countP binIndex (distinct.filter p)]
  apply countP_congr
  intro ts listed
  have occupied := (holding.occupied _).mpr (mem_map_of_mem (f := binIndex) listed)
  simp [occupied]

theorem Holding.toNat_countInRange (holding : h.Holding added) (few : added.length < 2 ^ 64)
    (start stop : UInt64) :
    (h.countInRange start stop).toNat = added.countP (enclosed start stop) := by
  have inside (range : start < stop) :
      ((window (binIndex start) (binIndex (stop - 1)) h.bins).map fun bin => bin.2.toNat).sum
        = added.countP (enclosed start stop) := by
    rw [window_eq_filter _ _ holding.sorted]
    have sum := holding.sum_filter few
      fun i => decide (binIndex start ≤ i ∧ i ≤ binIndex (stop - 1))
    rw [sum]
    apply countP_congr
    intro ts _
    simp [enclosed, range]
  rw [StoredHistogram.countInRange]
  split
  · rename_i nothing
    symm
    apply countP_eq_zero.mpr
    intro ts listed both
    rcases nothing with none | reversed
    · have occupied := (holding.occupied _).mpr (mem_map_of_mem (f := binIndex) listed)
      rw [none] at occupied
      exact not_mem_nil occupied
    · simp only [enclosed, Bool.and_eq_true, decide_eq_true_eq] at both
      exact UInt64.not_lt.mpr reversed both.1.1
  · rename_i something
    have range : start < stop := UInt64.not_le.mp fun reversed => something (.inr reversed)
    have sum := inside range
    rw [toNat_countSum, sum]
    rw [sum]
    exact Nat.lt_of_le_of_lt countP_le_length few

/-- A timestamp in a range is in the bins of the range. -/
theorem enclosed_of_mem {start stop ts : UInt64} (after : start ≤ ts) (before : ts < stop) :
    enclosed start stop ts = true := by
  have last : (stop - 1).toNat = stop.toNat - 1 := by
    apply UInt64.toNat_sub_of_le
    grind
  rw [UInt64.le_iff_toNat_le] at after
  rw [UInt64.lt_iff_toNat_lt] at before
  simp only [enclosed, Bool.and_eq_true, decide_eq_true_eq, UInt64.lt_iff_toNat_lt,
    UInt64.le_iff_toNat_le, toNat_binIndex]
  omega

theorem Holding.faithful (holding : h.Holding added) (few : added.length < 2 ^ 64) :
    h.Faithful added where
  sorted := holding.sorted
  total := by
    have whole := holding.sum_filter few fun _ => true
    rw [filter_true, countP_true] at whole
    rw [whole, holding.total, UInt64.toNat_ofNat', Nat.mod_eq_of_lt few]
  counts := holding.toNat_countAt few
  covers := by
    intro start stop
    rw [holding.toNat_countInRange few]
    apply countP_mono_left
    intro ts _ both
    have both := of_decide_eq_true both
    exact enclosed_of_mem both.1 both.2
  within := by
    intro start stop
    exact Nat.le_of_eq (holding.toNat_countInRange few start stop)

end Few

/-- Whatever its history, a histogram has its bins in order and counts its timestamps up to the
size of a counter, and it is faithful to fewer than 2^64 of them. -/
theorem histogram_faithful (h : History) :
    h.run.Holding h.added ∧ (h.added.length < 2 ^ 64 → h.run.Faithful h.added) :=
  ⟨h.holding, fun few => h.holding.faithful few⟩

/-- Two timestamps of which one is added twice, stored and read again. -/
theorem histogram_faithful_three :
    let h := History.reload ((((History.empty.add 7).add 250000).merge (History.empty.add 7)))
    h.run.Faithful h.added :=
  (histogram_faithful _).2 (by decide)

/-- A histogram of one timestamp, merged with itself again and again. -/
def doubled : Nat → History
  | 0 => .add .empty 0
  | n + 1 => .merge (doubled n) (doubled n)

theorem length_doubled (n : Nat) : (doubled n).added.length = 2 ^ n := by
  induction n with
  | zero => rfl
  | succ n ih => rw [doubled, History.added, length_append, ih, pow_succ, Nat.mul_two]

theorem eq_zero_of_mem_doubled {n : Nat} {ts : UInt64} (listed : ts ∈ (doubled n).added) :
    ts = 0 := by
  induction n with
  | zero => exact mem_singleton.mp listed
  | succ n ih =>
    rcases mem_append.mp listed with first | second
    · exact ih first
    · exact ih second

/-- Sixty-four merges wrap the counts around. -/
theorem doubled_wraps : ¬ ∀ h : History, h.run.Faithful h.added := by
  intro faithful
  have covers := (faithful (doubled 64)).covers 0 1
  have all : ((doubled 64).added.countP fun ts => 0 ≤ ts ∧ ts < 1) = 2 ^ 64 := by
    rw [← length_doubled 64]
    apply countP_eq_length.mpr
    intro ts listed
    rw [eq_zero_of_mem_doubled listed]
    rfl
  rw [all] at covers
  exact absurd (UInt64.toNat_lt _) (Nat.not_lt.mpr covers)

end StoredHistogram

end DFTracer.Indexing
