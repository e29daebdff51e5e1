/-
# Lines of a file indexed in slices

A file split among processes is cut at member boundaries, and a line may cross them. Every slice
but the first drops what precedes the first newline of its first member; every slice but the last
reads on through the first newline of the member after it. So the slices deliver the file cut once
a slice, and each cut is where a line ends unless that member holds no newline.
-/

import DFTracer.Gzip.IndexCover

namespace DFTracer.Gzip

open Member Indexer IsGzipFile List

variable {dec : GzipMemberDecompressor} {file : File} {members : List Member}

/-- The map of exactly the members of a file. -/
def memberMap (members : List Member) : List GzipMember :=
  (List.range members.length).map fun k => ⟨start members k, start members (k + 1) - start members k⟩

/-- The content of a member. -/
def contentOf (members : List Member) (k : Nat) : Bytes := (members[k]?.map Member.content).getD []

/-- The content of the members from `j` up to `k`. -/
def contentBetween (members : List Member) (j k : Nat) : Bytes :=
  (List.range' j (k - j)).flatMap (contentOf members)

/-- What a slice delivers: its members, the first one stripped unless it is the file's
first, and the beginning of the next slice's first member. -/
def sliceContent (members : List Member) (j k : Nat) : Bytes :=
  (if 0 < j then afterFirstNewline (contentOf members j) else contentOf members j)
    ++ contentBetween members (j + 1) k
    ++ (if k < members.length then throughFirstNewline (contentOf members k) else [])

theorem rangesFrom_tiles (per rem workers w cursor : Nat) (f : Nat → Bytes) :
    (rangesFrom per rem workers w cursor).flatMap (fun r => (List.range' r.1 (r.2 - r.1)).flatMap f)
      = (List.range' cursor (workers * per + min workers (rem - w))).flatMap f := by
  induction workers generalizing w cursor with
  | zero =>
    rw [Nat.zero_mul]
    rfl
  | succ workers ih =>
    have hcount : (workers + 1) * per + min (workers + 1) (rem - w)
        = (per + if w < rem then 1 else 0) + (workers * per + min workers (rem - (w + 1))) := by
      rw [Nat.succ_mul]
      split <;> omega
    rw [rangesFrom, flatMap_cons, ih, hcount, Nat.add_sub_cancel_left, ← flatMap_append,
      range'_append_1]

/-- The ranges of the workers are all the members of the slice, in order. -/
theorem workerRanges_tile (count workers : Nat) (hworkers : 0 < workers) (f : Nat → Bytes) :
    (workerRanges count workers).flatMap (fun r => (List.range' r.1 (r.2 - r.1)).flatMap f)
      = (List.range' 0 count).flatMap f := by
  rw [workerRanges, rangesFrom_tiles, Nat.sub_zero,
    Nat.min_eq_right (Nat.le_of_lt (Nat.mod_lt count hworkers)), Nat.div_add_mod count workers]

theorem mem_rangesFrom (per rem workers w cursor : Nat) (hper : 0 < per) (r : Nat × Nat) :
    r ∈ rangesFrom per rem workers w cursor →
      r.1 < r.2 ∧ r.2 ≤ cursor + (workers * per + min workers (rem - w)) := by
  induction workers generalizing w cursor with
  | zero =>
    intro h
    exact absurd h not_mem_nil
  | succ workers ih =>
    intro h
    have hcount : (workers + 1) * per + min (workers + 1) (rem - w)
        = (per + if w < rem then 1 else 0) + (workers * per + min workers (rem - (w + 1))) := by
      rw [Nat.succ_mul]
      split <;> omega
    rcases mem_cons.mp h with rfl | h
    · exact ⟨Nat.lt_add_of_pos_right (Nat.add_pos_left hper _), by omega⟩
    · obtain ⟨hlt, hle⟩ := ih _ _ h
      exact ⟨hlt, by omega⟩

theorem rangesFrom_last (per rem workers w cursor : Nat) :
    ((rangesFrom per rem (workers + 1) w cursor).getD workers (0, 0)).2
      = cursor + ((workers + 1) * per + min (workers + 1) (rem - w)) := by
  induction workers generalizing w cursor with
  | zero =>
    show cursor + (per + if w < rem then 1 else 0) = _
    split <;> omega
  | succ workers ih =>
    have hcount : (workers + 1 + 1) * per + min (workers + 1 + 1) (rem - w)
        = (per + if w < rem then 1 else 0) + ((workers + 1) * per + min (workers + 1) (rem - (w + 1))) := by
      rw [Nat.succ_mul (workers + 1)]
      split <;> omega
    rw [rangesFrom, getD_cons_succ, ih, hcount, Nat.add_assoc]

/-- A worker's range is a non-empty part of the slice, and the last one ends with it. -/
theorem workerRanges_getD (count workers w : Nat) (hw : w < workers) (hle : workers ≤ count) :
    ((workerRanges count workers).getD w (0, 0)).1 < ((workerRanges count workers).getD w (0, 0)).2 ∧
      ((workerRanges count workers).getD w (0, 0)).2 ≤ count ∧
      (w + 1 = workers → ((workerRanges count workers).getD w (0, 0)).2 = count) := by
  have hpos : 0 < workers := Nat.zero_lt_of_lt hw
  have htotal : workers * (count / workers) + min workers (count % workers - 0) = count := by
    rw [Nat.sub_zero, Nat.min_eq_right (Nat.le_of_lt (Nat.mod_lt count hpos)), Nat.div_add_mod]
  have hlen : (workerRanges count workers).length = workers := rangesFrom_length _ _ _ _ _
  have hmem : (workerRanges count workers).getD w (0, 0) ∈ workerRanges count workers := by
    rw [getD_eq_getElem?_getD, getElem?_eq_getElem (by omega)]
    exact getElem_mem _
  have hin := mem_rangesFrom _ _ _ _ _ (Nat.div_pos hle hpos) _ hmem
  rw [htotal, Nat.zero_add] at hin
  refine ⟨hin.1, hin.2, ?_⟩
  rintro rfl
  rw [workerRanges, rangesFrom_last, htotal, Nat.zero_add]

theorem passed_start (h : IsGzipFile dec file members) (j k : Nat) (hjk : j ≤ k)
    (hk : k ≤ members.length) : passed members (start members k) j = List.range' j (k - j) := by
  apply (passed_sorted members _ j).eq_of_mem_iff pairwise_lt_range'
  intro i
  rw [h.mem_passed (Nat.le_trans hjk hk), mem_range'_1]
  constructor
  · rintro ⟨hji, hi, hlt⟩
    have hik := (h.start_lt_iff (Nat.le_of_lt hi) hk).mp hlt
    omega
  · rintro ⟨hji, hik⟩
    have hlt : i < k := by omega
    exact ⟨hji, by omega, (h.start_lt_iff (by omega) hk).mpr hlt⟩

/-- What a worker delivers of the members `j` to `k`. -/
theorem data_parallelWorker (h : IsGzipFile dec file members) (j k : Nat) (hjk : j < k)
    (hk : k ≤ members.length) (strip extend : Bool) :
    (parallelWorker dec file (start members j) (start members k) strip extend).flatMap
        ParallelInflateMsg.data
      = (if strip then afterFirstNewline (contentOf members j) else contentOf members j)
          ++ contentBetween members (j + 1) k
          ++ (if extend = true ∧ k < members.length then throughFirstNewline (contentOf members k)
              else []) := by
  have hj : j < members.length := by omega
  have hin : start members j < start members k := (h.start_lt_iff (Nat.le_of_lt hj) hk).mpr hjk
  have hbody : (memberMessage members strip j
      :: (List.range' (j + 1) (k - (j + 1))).map (memberMessage members false)).flatMap
        ParallelInflateMsg.data
      = (if strip then afterFirstNewline (contentOf members j) else contentOf members j)
          ++ contentBetween members (j + 1) k := by
    rw [flatMap_cons, flatMap_map]
    rfl
  rw [parallelWorker, h.workerLoop_first (h.start_le_size hk) strip hj hin,
    passed_start h (j + 1) k hjk hk]
  by_cases hlast : k < members.length
  · have hbefore : start members k < file.size := by
      rw [← h.start_length]
      exact (h.start_lt_iff hk (Nat.le_refl _)).mpr hlast
    cases extend with
    | false =>
      have hext : (if false = true ∧ k < members.length then throughFirstNewline (contentOf members k)
          else []) = [] := if_neg fun hb => Bool.false_ne_true hb.1
      rw [hext, append_nil]
      exact hbody
    | true =>
      have hext : (if true = true ∧ k < members.length then throughFirstNewline (contentOf members k)
          else []) = throughFirstNewline members[k].content := by
        rw [if_pos ⟨rfl, hlast⟩, contentOf, getElem?_eq_getElem hlast]
        rfl
      rw [hext, Bool.and_true, Bool.true_and, if_pos (decide_eq_true hbefore),
        h.decodeMemberAt_start hlast]
      rw [flatMap_append, hbody, flatMap_singleton]
  · have hend : ¬ start members k < file.size := by
      rw [show k = members.length by omega, h.start_length]
      exact Nat.lt_irrefl _
    have hext : (if extend = true ∧ k < members.length then throughFirstNewline (contentOf members k)
        else []) = [] := if_neg fun hb => hlast hb.2
    rw [hext, append_nil, decide_eq_false hend, Bool.and_false]
    exact hbody

/-! ### One slice -/

variable {j k : Nat}

theorem contentBetween_append (members : List Member) {i : Nat} (hij : i ≤ j)
    (hjk : j ≤ k) :
    contentBetween members i j ++ contentBetween members j k = contentBetween members i k := by
  have hsplit := range'_append_1 (s := i) (m := j - i) (n := k - j)
  rw [show i + (j - i) = j by omega, show j - i + (k - j) = k - i by omega] at hsplit
  rw [contentBetween, contentBetween, contentBetween, ← hsplit, flatMap_append]

theorem contentBetween_cons (members : List Member) (hjk : j < k) :
    contentOf members j ++ contentBetween members (j + 1) k = contentBetween members j k := by
  have hone : contentBetween members j (j + 1) = contentOf members j := by
    rw [contentBetween]
    simp
  rw [← contentBetween_append members (Nat.le_add_right j 1) hjk, hone]

/-- The offsets of a slice of the map are the starts of its members. -/
theorem rangeOffset_slice (members : List Member) (j k i sliceCEnd : Nat) (hk : k ≤ members.length)
    (hend : sliceCEnd = start members k) (hi : j + i ≤ k) :
    rangeOffset (((memberMap members).take k).drop j) sliceCEnd i = start members (j + i) := by
  rcases Nat.lt_or_eq_of_le hi with hlt | heq
  · have hget : (((memberMap members).take k).drop j)[i]?
        = some ⟨start members (j + i), start members (j + i + 1) - start members (j + i)⟩ := by
      rw [getElem?_drop, getElem?_take_of_lt hlt, memberMap, getElem?_map,
        getElem?_range (by omega)]
      rfl
    rw [rangeOffset, hget]
  · have hget : (((memberMap members).take k).drop j)[i]? = none := by
      apply getElem?_eq_none
      rw [length_drop, List.length_take]
      omega
    rw [rangeOffset, hget, heq]
    exact hend

theorem flatMap_range_getD {α β : Type} (l : List α) (d : α) (f : α → List β) :
    (List.range l.length).flatMap (fun i => f (l.getD i d)) = l.flatMap f := by
  rw [flatMap_def]
  congr 1
  apply ext_getElem
  · simp
  · intro i hi hi'
    have hi : i < l.length := by simpa using hi
    simp [getElem?_eq_getElem hi]

theorem flatMap_wholeWorkers (members : List Member) (j count workers : Nat)
    (hworkers : 0 < workers) :
    (List.range workers).flatMap (fun w =>
        contentBetween members (j + ((workerRanges count workers).getD w (0, 0)).1)
          (j + ((workerRanges count workers).getD w (0, 0)).2))
      = contentBetween members j (j + count) := by
  have htile := workerRanges_tile count workers hworkers fun i => contentOf members (j + i)
  have hlen : (workerRanges count workers).length = workers := rangesFrom_length _ _ _ _ _
  have hshift : ∀ a b, contentBetween members (j + a) (j + b)
      = (List.range' a (b - a)).flatMap fun i => contentOf members (j + i) := by
    intro a b
    rw [contentBetween, show j + b - (j + a) = b - a by omega, ← map_add_range',
      flatMap_map]
  have hindex := flatMap_range_getD (workerRanges count workers) (0, 0)
    fun r => contentBetween members (j + r.1) (j + r.2)
  rw [hlen] at hindex
  calc (List.range workers).flatMap (fun w =>
        contentBetween members (j + ((workerRanges count workers).getD w (0, 0)).1)
          (j + ((workerRanges count workers).getD w (0, 0)).2))
      = (workerRanges count workers).flatMap fun r =>
          contentBetween members (j + r.1) (j + r.2) := hindex
    _ = (List.range' 0 count).flatMap fun i => contentOf members (j + i) := by
        rw [← htile]
        exact flatMap_congr fun r _ => hshift r.1 r.2
    _ = contentBetween members j (j + count) := (hshift 0 count).symm

/-- Worker by worker, what a slice delivers is the content of its members without the
beginning that is stripped. -/
theorem flatMap_workers (members : List Member) (j count workers : Nat) (strip : Bool)
    (hworkers : 0 < workers) (hle : workers ≤ count) :
    (if strip then throughFirstNewline (contentOf members j) else [])
      ++ (List.range workers).flatMap (fun w =>
        (if (strip && w == 0) = true
          then afterFirstNewline (contentOf members (j + ((workerRanges count workers).getD w (0, 0)).1))
          else contentOf members (j + ((workerRanges count workers).getD w (0, 0)).1))
        ++ contentBetween members (j + ((workerRanges count workers).getD w (0, 0)).1 + 1)
          (j + ((workerRanges count workers).getD w (0, 0)).2))
      = contentBetween members j (j + count) := by
  rw [← flatMap_wholeWorkers members j count workers hworkers]
  obtain ⟨rest, rfl⟩ : ∃ rest, workers = rest + 1 := ⟨workers - 1, by omega⟩
  have hzero : ((workerRanges count (rest + 1)).getD 0 (0, 0)).1 = 0 := rfl
  have hnonempty := fun w hw => (workerRanges_getD count (rest + 1) w hw hle).1
  rw [range_succ_eq_map, flatMap_cons, flatMap_cons, ← append_assoc]
  congr 1
  · have hcons := contentBetween_cons members
      (Nat.add_lt_add_left (hnonempty 0 (Nat.succ_pos rest)) j)
    rw [← hcons, ← append_assoc]
    congr 1
    cases strip with
    | false => rfl
    | true => exact throughFirstNewline_append _
  · rw [flatMap_map, flatMap_map]
    apply flatMap_congr
    intro w hw
    have hw : w + 1 < rest + 1 := Nat.succ_lt_succ (mem_range.mp hw)
    have hcons := contentBetween_cons members (Nat.add_lt_add_left (hnonempty (w + 1) hw) j)
    have hother : (strip && w + 1 == 0) = false := by simp
    rw [hother, if_neg Bool.false_ne_true, hcons]

theorem flatMap_slice (h : IsGzipFile dec file members) (j k : Nat) (hjk : j < k)
    (hk : k ≤ members.length) (workers : Nat) (hworkers : 0 < workers) (hle : workers ≤ k - j)
    (hlast : decide (start members k < file.size) = decide (k < members.length)) :
    (List.range workers).flatMap (fun w =>
        (parallelWorker dec file
          (rangeOffset (((memberMap members).take k).drop j) (start members k)
            ((workerRanges (k - j) workers).getD w (0, 0)).1)
          (rangeOffset (((memberMap members).take k).drop j) (start members k)
            ((workerRanges (k - j) workers).getD w (0, 0)).2)
          (decide (0 < j) && w == 0)
          (w + 1 == workers && decide (start members k < file.size))).flatMap ParallelInflateMsg.data)
      = sliceContent members j k := by
  have hranges := fun w hw => workerRanges_getD (k - j) workers w hw hle
  have hone : ∀ w ∈ List.range workers,
      (parallelWorker dec file
        (rangeOffset (((memberMap members).take k).drop j) (start members k)
          ((workerRanges (k - j) workers).getD w (0, 0)).1)
        (rangeOffset (((memberMap members).take k).drop j) (start members k)
          ((workerRanges (k - j) workers).getD w (0, 0)).2)
        (decide (0 < j) && w == 0)
        (w + 1 == workers && decide (start members k < file.size))).flatMap ParallelInflateMsg.data
      = ((if (decide (0 < j) && w == 0) = true
            then afterFirstNewline (contentOf members (j + ((workerRanges (k - j) workers).getD w (0, 0)).1))
            else contentOf members (j + ((workerRanges (k - j) workers).getD w (0, 0)).1))
          ++ contentBetween members (j + ((workerRanges (k - j) workers).getD w (0, 0)).1 + 1)
            (j + ((workerRanges (k - j) workers).getD w (0, 0)).2))
        ++ if w + 1 = workers ∧ k < members.length then throughFirstNewline (contentOf members k) else [] := by
    intro w hw
    obtain ⟨hless, hin, hend⟩ := hranges w (mem_range.mp hw)
    rw [rangeOffset_slice members j k _ _ hk rfl (by omega),
      rangeOffset_slice members j k _ _ hk rfl (by omega),
      data_parallelWorker h _ _ (Nat.add_lt_add_left hless j) (by omega), hlast]
    congr 1
    by_cases hw : w + 1 = workers
    · rw [hend hw, Nat.add_sub_cancel' (Nat.le_of_lt hjk)]
      simp
    · simp [hw]
  have hbase := flatMap_workers members j (k - j) workers (decide (0 < j)) hworkers hle
  rw [Nat.add_sub_cancel' (Nat.le_of_lt hjk), ← contentBetween_cons members hjk] at hbase
  have hstripped : (if decide (0 < j) = true then throughFirstNewline (contentOf members j) else [])
      ++ ((if 0 < j then afterFirstNewline (contentOf members j) else contentOf members j)
        ++ contentBetween members (j + 1) k)
      = contentOf members j ++ contentBetween members (j + 1) k := by
    rw [← append_assoc]
    congr 1
    by_cases hj : 0 < j
    · rw [if_pos (decide_eq_true hj), if_pos hj, throughFirstNewline_append]
    · rw [if_neg (by simpa using hj), if_neg hj]
      rfl
  have hsame := append_cancel_left (hbase.trans hstripped.symm)
  rw [flatMap_congr hone, sliceContent, ← hsame]
  obtain ⟨rest, rfl⟩ : ∃ rest, workers = rest + 1 := ⟨workers - 1, by omega⟩
  rw [range_succ, flatMap_append, flatMap_append, flatMap_singleton,
    flatMap_singleton, ← append_assoc]
  refine congrArg₂ (· ++ ·) (congrArg (· ++ _) (flatMap_congr ?_)) ?_
  · intro w hw
    have hne : ¬ (w + 1 = rest + 1 ∧ k < members.length) := by
      rintro ⟨heq, -⟩
      have hlt := mem_range.mp hw
      omega
    rw [if_neg hne, append_nil]
  · simp

/-- A slice delivers its members' content, stripped at its start and extended at its end. -/
theorem processSlice_delivers (h : IsGzipFile dec file members) (schedule : Schedule) (j k : Nat)
    (hjk : j < k) (hk : k ≤ members.length) (totalLines : Nat) :
    visitedBytes (processSlice dec file schedule (memberMap members) j k totalLines).2.calls
      = sliceContent members j k := by
  have hmap : (memberMap members).length = members.length := by
    rw [memberMap, length_map, length_range]
  have hend : rangeOffset (memberMap members) file.size k = start members k := by
    have hslice := rangeOffset_slice members 0 members.length k file.size (Nat.le_refl _)
      h.start_length.symm (by omega)
    rwa [drop_zero, ← hmap, take_length, Nat.zero_add] at hslice
  have hcount : (((memberMap members).take k).drop j).length = k - j := by
    rw [length_drop, List.length_take, hmap, Nat.min_eq_left hk]
  have hworkers : 0 < numWorkers (k - j) schedule.parallelism := by
    rw [numWorkers, defaultMaxWorkers]
    omega
  have hle : numWorkers (k - j) schedule.parallelism ≤ k - j := by
    rw [numWorkers]
    omega
  have hlast : decide (start members k < file.size) = decide (k < members.length) := by
    apply decide_eq_decide.mpr
    rw [← h.start_length]
    exact h.start_lt_iff hk (Nat.le_refl _)
  rw [processSlice]
  have hrun := @processChunksParallel_eq dec file schedule
    (rangeOffset (memberMap members) file.size k) (((memberMap members).take k).drop j) j
    (decide (0 < j)) totalLines
  have hdata : (workerMessages dec file schedule.parallelism (start members k)
      (((memberMap members).take k).drop j) (decide (0 < j))).flatten.flatMap ParallelInflateMsg.data
      = sliceContent members j k := by
    rw [workerMessages, Math.flatten_mapIdx _ (0, 0), workerRanges, rangesFrom_length,
      flatMap_assoc,
      hcount]
    exact flatMap_slice h j k hjk hk _ hworkers hle hlast
  rw [hrun, hend]
  rw [visitedBytes_append, visitedBytes_fold, hdata]
  exact append_nil _

/-! ## The file in slices -/

/-- Consecutive slices of `n` members from `j` on, cut at the given members. -/
def slicesFrom (n : Nat) : Nat → List Nat → List (Nat × Nat)
  | j, [] => [(j, n)]
  | j, k :: cuts => (j, k) :: slicesFrom n k cuts

/-- What the slices from member `j` on deliver together. -/
def deliveredFrom (members : List Member) (j : Nat) : Bytes :=
  (if 0 < j then afterFirstNewline (contentOf members j) else contentOf members j)
    ++ contentBetween members (j + 1) members.length

/-- The cut a slice makes at its first member falls where a line ends: the member holds a
newline, or nothing of the file follows it, or it is empty and a line has just ended. -/
def LineKept (members : List Member) (k : Nat) : Prop :=
  newline ∈ contentOf members k ∨ contentBetween members (k + 1) members.length = [] ∨
    (contentOf members k = [] ∧ (contentBetween members 0 k = [] ∨
      (contentBetween members 0 k).getLast? = some newline))

theorem sliceContent_append (members : List Member) (hjk : j < k)
    (hk : k < members.length) :
    sliceContent members j k ++ deliveredFrom members k = deliveredFrom members j := by
  have hcut := throughFirstNewline_append (contentOf members k)
  rw [sliceContent, deliveredFrom, if_pos hk, if_pos (Nat.zero_lt_of_lt hjk), append_assoc,
    ← append_assoc (throughFirstNewline _), hcut, contentBetween_cons members hk, append_assoc,
    contentBetween_append members hjk (Nat.le_of_lt hk)]
  rfl

theorem sliceContent_last (members : List Member) (j : Nat) :
    sliceContent members j members.length = deliveredFrom members j := by
  rw [sliceContent, if_neg (Nat.lt_irrefl _), append_nil]
  rfl

/-- The bytes before a slice's cut. -/
def beforeCut (members : List Member) (k : Nat) : Bytes :=
  contentBetween members 0 k ++ if 0 < k then throughFirstNewline (contentOf members k) else []

theorem lineKept_iff (members : List Member) (k : Nat) (hpos : 0 < k) :
    LineKept members k ↔ AtLineEnd (beforeCut members k) (deliveredFrom members k) := by
  have hcut := throughFirstNewline_append (contentOf members k)
  rw [beforeCut, deliveredFrom, if_pos hpos, if_pos hpos]
  by_cases hnew : newline ∈ contentOf members k
  · refine ⟨fun _ => .inr (.inr ?_), fun _ => .inl hnew⟩
    rw [getLast?_append, throughFirstNewline_getLast? hnew]
    rfl
  · rw [throughFirstNewline_of_not_mem hnew] at hcut ⊢
    rw [append_right_eq_self.mp hcut]
    constructor
    · rintro (hmem | hrest | ⟨hempty, hbefore⟩)
      · exact absurd hmem hnew
      · exact .inr (.inl hrest)
      · rw [hempty, append_nil]
        exact hbefore.imp id .inr
    · rintro (hnil | hrest | hend)
      · obtain ⟨hbefore, hempty⟩ := append_eq_nil_iff.mp hnil
        exact .inr (.inr ⟨hempty, .inl hbefore⟩)
      · exact .inr (.inl hrest)
      · by_cases hempty : contentOf members k = []
        · rw [hempty, append_nil] at hend
          exact .inr (.inr ⟨hempty, .inr hend⟩)
        · rw [getLast?_append, getLast?_eq_some_getLast hempty, Option.some_or,
            Option.some.injEq] at hend
          exact absurd (hend ▸ getLast_mem hempty) hnew

theorem beforeCut_append (members : List Member) (hjk : j < k) (hk : k < members.length) :
    beforeCut members j ++ sliceContent members j k = beforeCut members k := by
  have hcut := throughFirstNewline_append (contentOf members j)
  have hfirst : (if 0 < j then throughFirstNewline (contentOf members j) else [])
      ++ (if 0 < j then afterFirstNewline (contentOf members j) else contentOf members j)
      = contentOf members j := by
    by_cases hj : 0 < j
    · rw [if_pos hj, if_pos hj, hcut]
    · rw [if_neg hj, if_neg hj, nil_append]
  rw [beforeCut, beforeCut, sliceContent, if_pos hk, if_pos (Nat.zero_lt_of_lt hjk), append_assoc,
    append_assoc, ← append_assoc (if 0 < j then _ else _), hfirst, ← append_assoc,
    ← append_assoc, append_assoc _ (contentOf members j), contentBetween_cons members hjk,
    contentBetween_append members (Nat.zero_le j) (Nat.le_of_lt hjk)]

/-- The lines of the slices from member `j` on, slice by slice. -/
def sliceLines (members : List Member) (j : Nat) (cuts : List Nat) : List Bytes :=
  (slicesFrom members.length j cuts).flatMap fun s => lines (sliceContent members s.1 s.2)

theorem length_lines_le_slices (members : List Member) (j : Nat) (cuts : List Nat)
    (hcuts : (j :: cuts).Pairwise (· < ·)) (hbound : ∀ k ∈ cuts, k < members.length) :
    (lines (deliveredFrom members j)).length ≤ (sliceLines members j cuts).length := by
  induction cuts generalizing j with
  | nil =>
    rw [sliceLines, slicesFrom, flatMap_singleton, sliceContent_last]
  | cons k cuts ih =>
    obtain ⟨hjk, hrest⟩ := pairwise_cons.mp hcuts
    have hk := hbound k mem_cons_self
    have hind := ih k hrest fun i hi => hbound i (mem_cons_of_mem k hi)
    have hle := length_lines_append_le (sliceContent members j k) (deliveredFrom members k)
    rw [sliceContent_append members (hjk k mem_cons_self) hk] at hle
    rw [sliceLines] at hind ⊢
    rw [slicesFrom, flatMap_cons, length_append]
    dsimp only
    omega

/-- The lines of the slices, against the lines of what they deliver together. The cuts
are handled from the front: a first cut inside a line already adds a line, one at a line
end leaves the others as they are. -/
theorem lines_slices (members : List Member) (j : Nat) (cuts : List Nat)
    (hcuts : (j :: cuts).Pairwise (· < ·)) (hbound : ∀ k ∈ cuts, k < members.length)
    (hbefore : AtLineEnd (beforeCut members j) (deliveredFrom members j)) :
    ((∀ k ∈ cuts, LineKept members k) → sliceLines members j cuts = lines (deliveredFrom members j)) ∧
      ((sliceLines members j cuts).length = (lines (deliveredFrom members j)).length →
        ∀ k ∈ cuts, LineKept members k) := by
  induction cuts generalizing j with
  | nil =>
    refine ⟨fun _ => ?_, fun _ k hk => absurd hk not_mem_nil⟩
    rw [sliceLines, slicesFrom, flatMap_singleton, sliceContent_last]
  | cons k cuts ih =>
    obtain ⟨hjk, hrest⟩ := pairwise_cons.mp hcuts
    have hjk := hjk k mem_cons_self
    have hk := hbound k mem_cons_self
    have hbound' : ∀ i ∈ cuts, i < members.length := fun i hi => hbound i (mem_cons_of_mem k hi)
    have hwhole := sliceContent_append members hjk hk
    have hcut := beforeCut_append members hjk hk
    have hkept := lineKept_iff members k (Nat.zero_lt_of_lt hjk)
    have hsplit : sliceLines members j (k :: cuts)
        = lines (sliceContent members j k) ++ sliceLines members k cuts := rfl
    by_cases hend : AtLineEnd (sliceContent members j k) (deliveredFrom members k)
    · have hnext : AtLineEnd (beforeCut members k) (deliveredFrom members k) := by
        rcases hend with hnil | hrest | hlast
        · rw [hnil, append_nil] at hcut
          rw [hnil, nil_append] at hwhole
          rwa [← hcut, hwhole]
        · exact .inr (.inl hrest)
        · refine .inr (.inr ?_)
          rw [← hcut, getLast?_append, hlast]
          rfl
      obtain ⟨hsame, hlen⟩ := ih k hrest hbound' hnext
      rw [hsplit, ← hwhole, lines_append hend]
      constructor
      · intro hall
        rw [hsame fun i hi => hall i (mem_cons_of_mem k hi)]
      · intro heq i hi
        rw [length_append, length_append] at heq
        rcases mem_cons.mp hi with rfl | hi
        · exact hkept.mpr hnext
        · exact hlen (by omega) i hi
    · have hmore := length_lines_append hend
      have hbelow := length_lines_le_slices members k cuts hrest hbound'
      rw [hwhole] at hmore
      constructor
      · intro hall
        exfalso
        rcases hkept.mp (hall k mem_cons_self) with hnil | hrest | hlast
        · rw [← hcut] at hnil
          exact hend (.inl (append_eq_nil_iff.mp hnil).2)
        · exact hend (.inr (.inl hrest))
        · have hne : sliceContent members j k ≠ [] := fun hnil => hend (.inl hnil)
          rw [← hcut, getLast?_append, getLast?_eq_some_getLast hne, Option.some_or,
            ← getLast?_eq_some_getLast hne] at hlast
          exact hend (.inr (.inr hlast))
      · intro heq
        rw [hsplit, length_append] at heq
        omega

theorem deliveredFrom_zero (members : List Member) (hsome : members ≠ []) :
    deliveredFrom members 0 = members.flatMap Member.content := by
  rw [deliveredFrom, if_neg (Nat.lt_irrefl 0),
    contentBetween_cons members (length_pos_iff.mpr hsome), contentBetween, flatMap_def]
  congr 1
  apply ext_getElem
  · simp
  · intro k hk hk'
    have hk : k < members.length := by simpa using hk
    simp [contentOf, getElem?_eq_getElem hk]

theorem mem_slicesFrom (n j : Nat) (cuts : List Nat) (hj : j < n)
    (hcuts : (j :: cuts).Pairwise (· < ·)) (hbound : ∀ k ∈ cuts, k < n) :
    ∀ s ∈ slicesFrom n j cuts, s.1 < s.2 ∧ s.2 ≤ n := by
  induction cuts generalizing j with
  | nil =>
    intro s hs
    rw [slicesFrom, mem_singleton] at hs
    subst hs
    exact ⟨hj, Nat.le_refl n⟩
  | cons k cuts ih =>
    obtain ⟨hjk, hrest⟩ := pairwise_cons.mp hcuts
    have hk := hbound k mem_cons_self
    intro s hs
    rcases mem_cons.mp hs with rfl | hs
    · exact ⟨hjk k mem_cons_self, Nat.le_of_lt hk⟩
    · exact ih k hk hrest (fun i hi => hbound i (mem_cons_of_mem k hi)) s hs

/-- Indexed in slices, a file's lines are each seen once exactly when every cut between
two slices falls where a line ends, which the member after the cut decides. -/
theorem slices_see_lines_iff (h : IsGzipFile dec file members) (schedule : Nat × Nat → Schedule)
    (cuts : List Nat) (hcuts : (0 :: cuts).Pairwise (· < ·)) (hbound : ∀ k ∈ cuts, k < members.length)
    (totalLines : Nat) :
    ((slicesFrom members.length 0 cuts).flatMap fun s =>
        lines (visitedBytes
          (processSlice dec file (schedule s) (memberMap members) s.1 s.2 totalLines).2.calls)).Perm
      (lines (members.flatMap Member.content)) ↔ ∀ k ∈ cuts, LineKept members k := by
  have hslices := mem_slicesFrom members.length 0 cuts (length_pos_iff.mpr h.someMember) hcuts hbound
  have hlines : ((slicesFrom members.length 0 cuts).flatMap fun s =>
        lines (visitedBytes
          (processSlice dec file (schedule s) (memberMap members) s.1 s.2 totalLines).2.calls))
      = sliceLines members 0 cuts := by
    apply flatMap_congr
    intro s hs
    obtain ⟨hlt, hle⟩ := hslices s hs
    rw [processSlice_delivers h (schedule s) s.1 s.2 hlt hle totalLines]
  obtain ⟨hsame, hlen⟩ := lines_slices members 0 cuts hcuts hbound (.inl rfl)
  rw [hlines, ← deliveredFrom_zero members h.someMember]
  constructor
  · intro hperm
    exact hlen hperm.length_eq
  · intro hkept
    rw [hsame hkept]

/-- One line over three members: the second one holds no newline. -/
def longLineMembers : List Member :=
  [⟨[0x1F, 0x8B, 0x08, 0x00, 0x00, 0x00, 0x00, 0x00, 0x00, 0x03, 0x01, 0x02, 0x00, 0xFD, 0xFF, 0x61,
      0x62, 0x6D, 0x48, 0x83, 0x9E, 0x02, 0x00, 0x00, 0x00], [0x61, 0x62]⟩,
    ⟨[0x1F, 0x8B, 0x08, 0x00, 0x00, 0x00, 0x00, 0x00, 0x00, 0x03, 0x01, 0x01, 0x00, 0xFE, 0xFF, 0x63,
      0x6F, 0xDF, 0xB9, 0x06, 0x01, 0x00, 0x00, 0x00], [0x63]⟩,
    ⟨[0x1F, 0x8B, 0x08, 0x00, 0x00, 0x00, 0x00, 0x00, 0x00, 0x03, 0x01, 0x02, 0x00, 0xFD, 0xFF, 0x64,
      0x0A, 0x42, 0x55, 0x9D, 0xA0, 0x02, 0x00, 0x00, 0x00], [0x64, 0x0A]⟩]

def longLineFile : File := ⟨longLineMembers.flatMap Member.compressed, by decide⟩

theorem longLine_isGzipFile :
    IsGzipFile (tableDecoder longLineMembers) longLineFile longLineMembers where
  concat := rfl
  someMember := cons_ne_nil _ _
  long := by decide
  decodes := by
    intro m hm rest
    rcases mem_cons.mp hm with rfl | hm
    · rfl
    · rcases mem_cons.mp hm with rfl | hm
      · rfl
      · rw [mem_singleton.mp hm]
        rfl
  truncated := by decide +kernel
  rejects := by
    intro offset hoffset
    apply tableDecoder_rejects
    rcases Nat.lt_or_ge offset 74 with hlt | hge
    · revert hoffset
      revert offset
      decide +kernel
    · rw [drop_eq_nil_of_le (Nat.le_trans (by decide) hge)]
      decide

/-- The first slice ends the line too early and the second one delivers its end as a
line of its own. -/
theorem slices_tear_line :
    IsGzipFile (tableDecoder longLineMembers) longLineFile longLineMembers ∧
    ¬ ((slicesFrom longLineMembers.length 0 [1]).flatMap fun s =>
        lines (visitedBytes (processSlice (tableDecoder longLineMembers) longLineFile (inOrder 1)
          (memberMap longLineMembers) s.1 s.2 0).2.calls)).Perm
      (lines (longLineMembers.flatMap Member.content)) := by
  refine ⟨longLine_isGzipFile, fun hperm => ?_⟩
  have hlen := hperm.length_eq
  revert hlen
  decide +kernel

/-- A cut before a member with a newline keeps the lines. -/
theorem slices_keep_lines :
    ((slicesFrom falseHeaderMembers.length 0 [1, 2]).flatMap fun s =>
        lines (visitedBytes (processSlice (tableDecoder falseHeaderMembers) falseHeaderFile (inOrder 2)
          (memberMap falseHeaderMembers) s.1 s.2 0).2.calls)).Perm
      (lines (falseHeaderMembers.flatMap Member.content)) := by
  refine (slices_see_lines_iff falseHeader_isGzipFile (fun _ => inOrder 2) [1, 2] (by decide) (by decide)
    0).mpr ?_
  intro k hk
  left
  revert hk
  revert k
  decide

end DFTracer.Gzip
