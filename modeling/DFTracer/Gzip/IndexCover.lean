/-
# The index of a whole file

The records of a whole-file pass are compared with the members the file has. A
worker whose range begins at a false candidate decodes nothing and its range is
lost, so the pass covers the file exactly when every member starts in one range that
begins at a member.
-/

import DFTracer.Gzip.Indexer
import DFTracer.Math.Lists

namespace DFTracer.Gzip

open Member Indexer IsGzipFile List

variable {dec : GzipMemberDecompressor} {file : File} {members : List Member}

/-- The uncompressed bytes before a member. -/
def contentBefore (members : List Member) (k : Nat) : Bytes := (members.take k).flatMap Member.content

/-- The record a complete index has for a member. -/
def recordOf (members : List Member) (linesBefore k : Nat) : GzipMemberRecord where
  memberIdx := k
  cOffset := start members k
  cSize := start members (k + 1) - start members k
  ucOffset := (contentBefore members k).length
  ucSize := (contentBefore members (k + 1)).length - (contentBefore members k).length
  firstLineNum := linesBefore + countNewlines (contentBefore members k) + 1
  lastLineNum := linesBefore + countNewlines (contentBefore members (k + 1))

/-- The bytes visitors are given, in order. -/
def visitedBytes (calls : List VisitorCall) : Bytes :=
  calls.flatMap fun call =>
    match call with
    | .onChunk data _ => data
    | _ => []

/-- The index covers the file: one record a member, in order, and the visitors saw the
content once. -/
structure Covers (members : List Member) (linesBefore : Nat) (s : Dispatch) : Prop where
  records : s.members = (List.range members.length).map (recordOf members linesBefore)
  visited : visitedBytes s.calls = members.flatMap Member.content

/-! ## The dispatcher's fold -/

/-- The dispatcher before anything arrived. -/
def initial (memberIdxBase memberCBase totalLines : Nat) : Dispatch :=
  { globalUc := 0, totalLines, memberIdx := memberIdxBase, memberCStart := memberCBase,
    memberUcStart := 0, memberFirstLine := totalLines + 1, members := [], calls := [] }

theorem visitedBytes_append (a b : List VisitorCall) :
    visitedBytes (a ++ b) = visitedBytes a ++ visitedBytes b := flatMap_append

/-- A message adds its bytes to what was visited. -/
theorem visitedBytes_processMsg (s : Dispatch) (msg : ParallelInflateMsg) :
    visitedBytes (processMsg s msg).calls = visitedBytes s.calls ++ msg.data := by
  have hchunk : visitedBytes (if msg.data.isEmpty then s.calls
      else s.calls ++ [.onChunk msg.data s.memberIdx]) = visitedBytes s.calls ++ msg.data := by
    split
    · rename_i hempty
      rw [List.isEmpty_iff.mp hempty, append_nil]
    · rw [visitedBytes_append]
      congr 1
      exact append_nil _
  rw [processMsg]
  by_cases hended : msg.memberEnded = true
  · rw [if_pos hended]
    rw [visitedBytes_append, hchunk]
    exact append_nil _
  · rw [if_neg hended]
    exact hchunk

theorem visitedBytes_fold (msgs : List ParallelInflateMsg) (s : Dispatch) :
    visitedBytes (msgs.foldl processMsg s).calls
      = visitedBytes s.calls ++ msgs.flatMap ParallelInflateMsg.data := by
  induction msgs generalizing s with
  | nil => exact (append_nil _).symm
  | cons msg msgs ih =>
    rw [foldl_cons, ih, visitedBytes_processMsg, flatMap_cons, append_assoc]

/-- Every record ends where its message says its member ends. -/
theorem recordEnds_fold (msgs : List ParallelInflateMsg) (s : Dispatch)
    (ended : ∀ msg ∈ msgs, msg.memberEnded = true ∧ msg.memberCEnd < 2 ^ 64)
    (hstart : s.memberCStart < 2 ^ 64) :
    ((msgs.foldl processMsg s).members.map fun r => (r.cOffset + r.cSize) % 2 ^ 64)
      = (s.members.map fun r => (r.cOffset + r.cSize) % 2 ^ 64) ++ msgs.map (·.memberCEnd) := by
  induction msgs generalizing s with
  | nil => exact (append_nil _).symm
  | cons msg msgs ih =>
    obtain ⟨hended, hend⟩ := ended msg mem_cons_self
    have hrec : (s.memberCStart + (msg.memberCEnd + 2 ^ 64 - s.memberCStart) % 2 ^ 64) % 2 ^ 64
        = msg.memberCEnd := by omega
    have hnext : (processMsg s msg).memberCStart = msg.memberCEnd := by
      rw [processMsg, if_pos hended]
    have hmembers : ((processMsg s msg).members.map fun r => (r.cOffset + r.cSize) % 2 ^ 64)
        = (s.members.map fun r => (r.cOffset + r.cSize) % 2 ^ 64) ++ [msg.memberCEnd] := by
      rw [processMsg, if_pos hended]
      simp only [map_append, map_cons, map_nil, hrec]
    rw [foldl_cons, ih _ (fun m hm => ended m (mem_cons_of_mem msg hm)) (hnext ▸ hend),
      hmembers, append_assoc]
    rfl

theorem contentBefore_succ {k : Nat} (hk : k < members.length) :
    contentBefore members (k + 1) = contentBefore members k ++ members[k].content := by
  rw [contentBefore, contentBefore, take_succ_eq_append_getElem hk, flatMap_append,
    flatMap_singleton]

/-- The messages of the first members carry their content. -/
theorem data_members (k : Nat) (hk : k ≤ members.length) :
    (List.range k).flatMap (fun j => (memberMessage members false j).data) = contentBefore members k := by
  induction k with
  | zero => rfl
  | succ k ih =>
    rw [range_succ, flatMap_append, ih (Nat.le_of_succ_le hk), flatMap_singleton,
      contentBefore_succ hk, memberMessage, getElem?_eq_getElem hk]
    rfl

/-- Records are only ever appended. -/
theorem head_fold (msgs : List ParallelInflateMsg) (s : Dispatch) (first : Nat)
    (hhead : s.members.head?.map (·.cOffset) = some first) :
    (msgs.foldl processMsg s).members.head?.map (·.cOffset) = some first := by
  induction msgs generalizing s with
  | nil => exact hhead
  | cons msg msgs ih =>
    apply ih
    rw [processMsg]
    split
    · obtain ⟨r, hr, hfirst⟩ := Option.map_eq_some_iff.mp hhead
      rw [head?_append, hr]
      exact congrArg some hfirst
    · exact hhead

/-- The dispatcher after the messages of the first `k` members. -/
theorem fold_members (h : IsGzipFile dec file members) (linesBefore k : Nat)
    (hk : k ≤ members.length) :
    let s := ((List.range k).map (memberMessage members false)).foldl processMsg
      (initial 0 0 linesBefore)
    s.members = (List.range k).map (recordOf members linesBefore) ∧
      s.memberIdx = k ∧ s.memberCStart = start members k ∧
      s.globalUc = (contentBefore members k).length ∧ s.memberUcStart = s.globalUc ∧
      s.totalLines = linesBefore + countNewlines (contentBefore members k) ∧
      s.memberFirstLine = s.totalLines + 1 := by
  induction k with
  | zero => exact ⟨rfl, rfl, rfl, rfl, rfl, rfl, rfl⟩
  | succ k ih =>
    obtain ⟨hrecords, hidx, hcstart, huc, hucstart, hlines, hfirst⟩ := ih (Nat.le_of_succ_le hk)
    have hlt : k < members.length := hk
    have hcontent := contentBefore_succ hlt
    have hmsg : memberMessage members false k
        = ⟨members[k].content, countNewlines members[k].content, true, start members (k + 1)⟩ := by
      rw [memberMessage, getElem?_eq_getElem hlt]
      rfl
    have hsize : start members (k + 1) < 2 ^ 64 :=
      Nat.lt_of_le_of_lt (h.start_le_size hk) file.fits
    have hgrow := h.start_add_le (Nat.lt_add_one k) hk
    have hcount : countNewlines (contentBefore members (k + 1))
        = countNewlines (contentBefore members k) + countNewlines members[k].content := by
      rw [hcontent, countNewlines, count_append]
      rfl
    have hlen : (contentBefore members (k + 1)).length
        = (contentBefore members k).length + members[k].content.length := by
      rw [hcontent, length_append]
    rw [range_succ, map_append, foldl_append, map_singleton, foldl_cons,
      foldl_nil, hmsg, processMsg, if_pos rfl]
    refine ⟨?_, by rw [hidx], rfl, by rw [hlen, huc], rfl, ?_, rfl⟩
    rotate_left
    · rw [hcount, hlines, Nat.add_assoc]
    dsimp only
    rw [map_append, map_singleton, recordOf]
    congr 2
    rw [hucstart, huc, hfirst, hlines, hlen]
    congr 1
    · omega
    · omega

/-- The dispatcher's result on any messages about whole members covers the file exactly
when these are the members in order, and the first record starts at the file's start. -/
theorem covers_fold_iff (h : IsGzipFile dec file members) (linesBefore first : Nat)
    (hfirst : first < 2 ^ 64) (indices : List Nat) (hindices : ∀ k ∈ indices, k < members.length) :
    Covers members linesBefore ((indices.map (memberMessage members false)).foldl processMsg
        (initial 0 first linesBefore))
      ↔ first = 0 ∧ indices = List.range members.length := by
  constructor
  · rintro ⟨hrecords, -⟩
    have hends := recordEnds_fold (indices.map (memberMessage members false))
      (initial 0 first linesBefore)
      (by
        intro msg hmsg
        obtain ⟨k, hk, rfl⟩ := mem_map.mp hmsg
        exact ⟨rfl, Nat.lt_of_le_of_lt (h.start_le_size (hindices k hk)) file.fits⟩) hfirst
    rw [hrecords, map_map, map_map] at hends
    have hrange : (List.range members.length).map
          ((fun r : GzipMemberRecord => (r.cOffset + r.cSize) % 2 ^ 64) ∘ recordOf members linesBefore)
        = (List.range members.length).map fun k => start members (k + 1) := by
      apply map_congr_left
      intro k hk
      have hk := mem_range.mp hk
      have hgrow := h.start_add_le (Nat.lt_add_one k) hk
      have hsize := Nat.lt_of_le_of_lt (h.start_le_size (k := k + 1) hk) file.fits
      simp only [Function.comp, recordOf]
      omega
    have hindex : indices = List.range members.length := by
      have hmap : (List.range members.length).map (fun k => start members (k + 1))
          = indices.map fun k => start members (k + 1) := hrange ▸ hends
      have hinj : ∀ j ∈ indices, ∀ k ∈ List.range members.length,
          start members (j + 1) = start members (k + 1) → j = k := by
        intro j hj k hk heq
        have hsucc := h.start_inj (hindices j hj) (mem_range.mp hk) heq
        omega
      apply ext_getElem
      · have hlen := congrArg List.length hmap
        rw [length_map, length_map] at hlen
        exact hlen.symm
      · intro i hi hi'
        apply hinj _ (getElem_mem hi) _ (getElem_mem hi')
        have hget := getElem_of_eq hmap (by rw [length_map]; exact hi')
        rw [getElem_map, getElem_map] at hget
        exact hget.symm
    refine ⟨?_, hindex⟩
    have hpos : 0 < members.length := length_pos_iff.mpr h.someMember
    obtain ⟨count, hcount⟩ : ∃ count, members.length = count + 1 := ⟨members.length - 1, by omega⟩
    have hhead : (((indices.map (memberMessage members false)).foldl processMsg
        (initial 0 first linesBefore)).members.head?.map (·.cOffset)) = some first := by
      rw [hindex, hcount, range_succ_eq_map, map_cons, foldl_cons]
      exact head_fold _ _ _ rfl
    rw [hrecords, hcount, range_succ_eq_map] at hhead
    exact (Option.some.inj hhead).symm
  · rintro ⟨rfl, rfl⟩
    refine ⟨(fold_members h linesBefore _ (Nat.le_refl _)).1, ?_⟩
    rw [visitedBytes_fold, flatMap_map, data_members _ (Nat.le_refl _), contentBefore, take_length]
    rfl

/-- The compressed range of a worker. -/
def workerRange (scanned : List GzipMember) (sliceCEnd parallelism w : Nat) : Nat × Nat :=
  let range := (workerRanges scanned.length (numWorkers scanned.length parallelism)).getD w (0, 0)
  (rangeOffset scanned sliceCEnd range.1, rangeOffset scanned sliceCEnd range.2)

theorem rangesFrom_length (per rem workers w cursor : Nat) :
    (rangesFrom per rem workers w cursor).length = workers := by
  induction workers generalizing w cursor with
  | zero => rfl
  | succ workers ih => rw [rangesFrom, length_cons, ih]

theorem le_of_mem_rangesFrom (per rem workers w cursor : Nat) (r : Nat × Nat) :
    r ∈ rangesFrom per rem workers w cursor → cursor ≤ r.1 := by
  induction workers generalizing w cursor with
  | zero =>
    intro h
    exact absurd h not_mem_nil
  | succ workers ih =>
    intro h
    rcases mem_cons.mp h with rfl | h
    · exact Nat.le_refl _
    · exact Nat.le_trans (Nat.le_add_right _ _) (ih _ _ h)

/-- Later workers have later indices. -/
theorem rangesFrom_sorted (per rem workers w cursor : Nat) :
    (rangesFrom per rem workers w cursor).Pairwise fun r r' => r.2 ≤ r'.1 := by
  induction workers generalizing w cursor with
  | zero => exact List.Pairwise.nil
  | succ workers ih =>
    refine pairwise_cons.mpr ⟨?_, ih _ _⟩
    intro r hr
    exact le_of_mem_rangesFrom _ _ _ _ _ r hr

theorem deliver_channels (schedule : Schedule) (sent : List (List ParallelInflateMsg)) :
    (sent.mapIdx fun w msgs => schedule.arrive w (Reorder.numbered msgs)).flatMap Reorder.deliver
      = sent.flatten := by
  rw [flatMap_def]
  congr 1
  apply ext_getElem
  · simp
  · intro i hi hi'
    rw [getElem_map, getElem_mapIdx]
    exact Reorder.deliver_eq _ _ (schedule.arrive_perm _ _)

/-- Whatever order the channels deliver in, the dispatcher handles the workers' messages
worker by worker in the order they were sent. -/
theorem processChunksParallel_eq (schedule : Schedule) (sliceCEnd : Nat)
    (scanned : List GzipMember) (memberIdxBase : Nat) (strip : Bool) (totalLines : Nat) :
    let s := (workerMessages dec file schedule.parallelism sliceCEnd scanned strip).flatten.foldl
      processMsg (initial memberIdxBase (rangeOffset scanned 0 0) totalLines)
    processChunksParallel dec file schedule sliceCEnd scanned memberIdxBase strip totalLines
      = { s with calls := s.calls ++ [.flush] } := by
  unfold processChunksParallel parallelDispatcher
  dsimp only
  rw [deliver_channels]
  rfl

/-- A worker with this compressed range decodes the member: its range begins at a member
and the member starts inside it. -/
def Reaches (members : List Member) (range : Nat × Nat) (k : Nat) : Prop :=
  IsStart members range.1 ∧ range.1 ≤ start members k ∧ start members k < range.2

instance (members : List Member) (range : Nat × Nat) (k : Nat) : Decidable (Reaches members range k) :=
  inferInstanceAs (Decidable (_ ∧ _ ∧ _))

/-- The members a worker with this range decodes. -/
def reached (members : List Member) (range : Nat × Nat) : List Nat :=
  (List.range members.length).filter fun k => Reaches members range k

theorem mem_reached (members : List Member) (range : Nat × Nat) (k : Nat) :
    k ∈ reached members range ↔ k < members.length ∧ Reaches members range k := by
  rw [reached, mem_filter, mem_range, decide_eq_true_iff]

theorem reached_sorted (members : List Member) (range : Nat × Nat) :
    (reached members range).Pairwise (· < ·) := List.Pairwise.filter _ pairwise_lt_range

/-- A worker sends the messages of the members it reaches. -/
theorem parallelWorker_whole (h : IsGzipFile dec file members) (range : Nat × Nat)
    (hend : range.2 ≤ file.size) :
    parallelWorker dec file range.1 range.2 false false
      = (reached members range).map (memberMessage members false) := by
  have hloop : parallelWorker dec file range.1 range.2 false false
      = (workerLoop dec file range.2 false (file.size + 1) range.1 true).1 := by
    rw [parallelWorker, Bool.and_false]
    rfl
  rw [hloop]
  by_cases hstart : IsStart members range.1
  · obtain ⟨j, hj, hjs⟩ := hstart
    by_cases hin : range.1 < range.2
    · have hpassed : reached members range = j :: passed members range.2 (j + 1) := by
        apply (reached_sorted members range).eq_of_mem_iff
        · refine pairwise_cons.mpr ⟨?_, passed_sorted members range.2 (j + 1)⟩
          intro k hk
          exact ((h.mem_passed hj).mp hk).1
        · intro k
          rw [mem_reached, mem_cons, h.mem_passed hj]
          constructor
          · rintro ⟨hk, -, hle, hlt⟩
            rcases Nat.lt_trichotomy j k with hjk | rfl | hkj
            · exact .inr ⟨hjk, hk, hlt⟩
            · exact .inl rfl
            · have hless := (h.start_lt_iff (Nat.le_of_lt hk) (Nat.le_of_lt hj)).mpr hkj
              omega
          · rintro (rfl | ⟨hjk, hk, hlt⟩)
            · exact ⟨hj, ⟨k, hj, hjs⟩, by omega, by omega⟩
            · have hless := (h.start_lt_iff (Nat.le_of_lt hj) (Nat.le_of_lt hk)).mpr hjk
              exact ⟨hk, ⟨j, hj, hjs⟩, by omega, hlt⟩
      rw [← hjs, h.workerLoop_first hend false hj (by omega), hpassed, map_cons]
    · have hnone : reached members range = [] := by
        apply eq_nil_iff_forall_not_mem.mpr
        intro k hk
        obtain ⟨-, -, hle, hlt⟩ := (mem_reached members range k).mp hk
        omega
      rw [workerLoop, if_neg hin, hnone]
      rfl
  · have hnone : reached members range = [] := by
      apply eq_nil_iff_forall_not_mem.mpr
      intro k hk
      exact hstart ((mem_reached members range k).mp hk).2.1
    rw [h.workerLoop_other hstart, hnone]
    rfl

/-! ## The whole file -/

theorem offsets_scannedMembers (file : File) :
    (scannedMembers file).map (·.cOffset) = [0] ∨
      (scannedMembers file).map (·.cOffset) = MemberScanner.candidateOffsets file.bytes := by
  have hsizes := MemberScanner.map_cOffset_withSizes file.bytes.length
    (MemberScanner.candidateOffsets file.bytes)
  unfold scannedMembers MemberScanner.enumerateGzipMemberCandidates
  by_cases hsmall : file.bytes.length < 18
  · rw [if_pos hsmall]
    exact .inl rfl
  · rw [if_neg hsmall]
    cases hlist : MemberScanner.withSizes file.bytes.length
        (MemberScanner.candidateOffsets file.bytes) with
    | nil => exact .inl rfl
    | cons m rest =>
      rw [hlist] at hsizes
      exact .inr hsizes

theorem offsets_nearlySorted (file : File) :
    ((scannedMembers file).map (·.cOffset)).Pairwise (fun c d => c ≤ d + 6) ∧
      ∀ c ∈ (scannedMembers file).map (·.cOffset), c ≤ file.size := by
  rcases offsets_scannedMembers file with hone | hscan
  · rw [hone]
    exact ⟨pairwise_singleton _ _, fun c hc => by rw [mem_singleton.mp hc]; exact Nat.zero_le _⟩
  · rw [hscan]
    refine ⟨MemberScanner.candidateOffsets_nearlySorted file.bytes, ?_⟩
    intro c hc
    have hle := MemberScanner.add_le_of_mem_candidateOffsets file.bytes hc
    exact Nat.le_trans (Nat.le_add_right c 10) hle

theorem rangeOffset_getElem (scanned : List GzipMember) (sliceCEnd i : Nat)
    (hi : i < (scanned.map (·.cOffset)).length) :
    rangeOffset scanned sliceCEnd i = (scanned.map (·.cOffset))[i] := by
  rw [getElem_map, rangeOffset, getElem?_eq_getElem (by simpa using hi)]

theorem rangeOffset_end (scanned : List GzipMember) (sliceCEnd i : Nat)
    (hi : (scanned.map (·.cOffset)).length ≤ i) : rangeOffset scanned sliceCEnd i = sliceCEnd := by
  rw [rangeOffset, getElem?_eq_none (by simpa using hi)]

/-- The offsets of worker ranges are almost ordered by index and lie in the file. -/
theorem rangeOffset_le (file : File) (i j : Nat) (hij : i ≤ j) :
    rangeOffset (scannedMembers file) file.size i ≤ rangeOffset (scannedMembers file) file.size j + 6 ∧
      rangeOffset (scannedMembers file) file.size i ≤ file.size := by
  obtain ⟨hsorted, hbounds⟩ := offsets_nearlySorted file
  rcases Nat.lt_or_ge i ((scannedMembers file).map (·.cOffset)).length with hi | hi
  · have hin := hbounds _ (getElem_mem hi)
    rw [rangeOffset_getElem _ _ _ hi]
    refine ⟨?_, hin⟩
    rcases Nat.lt_or_ge j ((scannedMembers file).map (·.cOffset)).length with hj | hj
    · rw [rangeOffset_getElem _ _ _ hj]
      rcases Nat.lt_or_eq_of_le hij with hlt | heq
      · exact pairwise_iff_getElem.mp hsorted i j hi hj hlt
      · simp only [heq]
        exact Nat.le_add_right _ 6
    · rw [rangeOffset_end _ _ _ hj]
      omega
  · rw [rangeOffset_end _ _ _ hi, rangeOffset_end _ _ _ (Nat.le_trans hi hij)]
    omega

/-- The members all workers decode, worker by worker. -/
def decoded (members : List Member) (file : File) (parallelism : Nat) : List Nat :=
  (List.range (numWorkers (scannedMembers file).length parallelism)).flatMap fun w =>
    reached members (workerRange (scannedMembers file) file.size parallelism w)

theorem workerRange_le (file : File) (parallelism w : Nat) :
    (workerRange (scannedMembers file) file.size parallelism w).2 ≤ file.size := by
  exact (rangeOffset_le file _ _ (Nat.le_refl _)).2

theorem workerRanges_getD_le (count workers w w' : Nat) (hlt : w < w') (hw' : w' < workers) :
    ((workerRanges count workers).getD w (0, 0)).2 ≤ ((workerRanges count workers).getD w' (0, 0)).1 := by
  have hlen : (workerRanges count workers).length = workers := rangesFrom_length _ _ _ _ _
  have hsorted := pairwise_iff_getElem.mp
    (rangesFrom_sorted (count / workers) (count % workers) workers 0 0)
    w w' (by rw [rangesFrom_length]; omega) (by rw [rangesFrom_length]; omega) hlt
  rw [getD_eq_getElem?_getD, getD_eq_getElem?_getD,
    getElem?_eq_getElem (by omega), getElem?_eq_getElem (by omega)]
  exact hsorted

theorem workerRange_sorted (file : File) (parallelism w w' : Nat) (hlt : w < w')
    (hw' : w' < numWorkers (scannedMembers file).length parallelism) :
    (workerRange (scannedMembers file) file.size parallelism w).2
      ≤ (workerRange (scannedMembers file) file.size parallelism w').1 + 6 := by
  exact (rangeOffset_le file _ _ (workerRanges_getD_le _ _ w w' hlt hw')).1

/-- The workers of a whole-file pass send the messages of the members they decode. -/
theorem workerMessages_whole (h : IsGzipFile dec file members) (parallelism : Nat) :
    (workerMessages dec file parallelism file.size (scannedMembers file) false).flatten
      = (decoded members file parallelism).map (memberMessage members false) := by
  rw [workerMessages, Math.flatten_mapIdx _ (0, 0), decoded, map_flatMap, workerRanges,
    rangesFrom_length]
  apply flatMap_congr
  intro w hw
  rw [← parallelWorker_whole h _ (workerRange_le file parallelism w),
    decide_eq_false (Nat.lt_irrefl _), Bool.and_false]
  rfl

/-- The members decoded are exactly the file's, in order, when each is reached by
exactly one worker. -/
theorem decoded_eq_iff (h : IsGzipFile dec file members) (parallelism : Nat) :
    decoded members file parallelism = List.range members.length ↔
      ∀ k < members.length, ∃! w, w < numWorkers (scannedMembers file).length parallelism ∧
        Reaches members (workerRange (scannedMembers file) file.size parallelism w) k := by
  constructor
  · intro heq k hk
    have hmem : k ∈ decoded members file parallelism := by
      rw [heq]
      exact mem_range.mpr hk
    obtain ⟨w, hw, hreached⟩ := mem_flatMap.mp hmem
    have hnodup : (decoded members file parallelism).Nodup := by
      rw [heq]
      exact nodup_range
    have hdisjoint := (nodup_flatMap.mp hnodup).2
    refine ⟨w, ⟨mem_range.mp hw, ((mem_reached _ _ _).mp hreached).2⟩, ?_⟩
    rintro w' ⟨hw', hreached'⟩
    have hin := (mem_reached members _ k).mpr ⟨hk, hreached'⟩
    rw [pairwise_iff_getElem] at hdisjoint
    have hw := mem_range.mp hw
    rcases Nat.lt_trichotomy w w' with hlt | rfl | hlt
    · have hd := hdisjoint w w' (by rwa [length_range]) (by rwa [length_range]) hlt
      rw [getElem_range, getElem_range] at hd
      exact absurd hin (hd hreached)
    · rfl
    · have hd := hdisjoint w' w (by rwa [length_range]) (by rwa [length_range]) hlt
      rw [getElem_range, getElem_range] at hd
      exact absurd hreached (hd hin)
  · intro hunique
    have hsorted : (decoded members file parallelism).Pairwise (· < ·) := by
      rw [decoded, pairwise_flatMap]
      refine ⟨fun w _ => reached_sorted members _, ?_⟩
      apply pairwise_lt_range.imp_of_mem
      intro w w' hw hw' hlt k hk k' hk'
      obtain ⟨hk, hreach⟩ := (mem_reached _ _ _).mp hk
      obtain ⟨hk', hreach'⟩ := (mem_reached _ _ _).mp hk'
      have horder := workerRange_sorted file parallelism w w' hlt (mem_range.mp hw')
      rcases Nat.lt_trichotomy k k' with hless | rfl | hmore
      · exact hless
      · have hsame := (hunique k hk).unique ⟨mem_range.mp hw, hreach⟩
          ⟨mem_range.mp hw', hreach'⟩
        omega
      · have hgap := h.start_add_le hmore (Nat.le_of_lt hk)
        have hbelow := hreach.2.2
        have habove := hreach'.2.1
        omega
    apply hsorted.eq_of_mem_iff pairwise_lt_range
    intro k
    rw [mem_range, decoded, mem_flatMap]
    constructor
    · rintro ⟨w, -, hk⟩
      exact ((mem_reached _ _ _).mp hk).1
    · intro hk
      obtain ⟨w, ⟨hw, hreach⟩, -⟩ := hunique k hk
      exact ⟨w, mem_range.mpr hw, (mem_reached _ _ _).mpr ⟨hk, hreach⟩⟩

/-- A whole-file pass covers the file exactly when the scan's first candidate is the
file's start and every member starts in exactly one worker range that itself begins at
a member. The order of delivery does not matter. -/
theorem processChunks_covers_iff (h : IsGzipFile dec file members) (schedule : Schedule)
    (linesBefore : Nat) :
    ((processChunks dec file schedule linesBefore).1 = true →
        Covers members linesBefore (processChunks dec file schedule linesBefore).2) ↔
      rangeOffset (scannedMembers file) 0 0 = 0 ∧
        ∀ k < members.length,
          ∃! w, w < numWorkers (scannedMembers file).length schedule.parallelism ∧
            Reaches members (workerRange (scannedMembers file) file.size schedule.parallelism w) k := by
  have hfirst : rangeOffset (scannedMembers file) 0 0 < 2 ^ 64 := by
    rcases Nat.lt_or_ge 0 ((scannedMembers file).map (·.cOffset)).length with hpos | hnil
    · rw [rangeOffset_getElem _ _ _ hpos]
      exact Nat.lt_of_le_of_lt ((offsets_nearlySorted file).2 _ (getElem_mem hpos)) file.fits
    · rw [rangeOffset_end _ _ _ hnil]
      exact Nat.two_pow_pos 64
  have hindices : ∀ k ∈ decoded members file schedule.parallelism, k < members.length := by
    intro k hk
    obtain ⟨w, -, hk⟩ := mem_flatMap.mp hk
    exact ((mem_reached _ _ _).mp hk).1
  have hfold := covers_fold_iff h linesBefore _ hfirst _ hindices
  rw [decoded_eq_iff h] at hfold
  rw [← hfold, ← workerMessages_whole h]
  have hrun := @processChunksParallel_eq dec file schedule file.size
    (scannedMembers file) 0 false linesBefore
  rw [processChunks, hrun]
  constructor
  · intro hcovers
    obtain ⟨hrecords, hvisited⟩ := hcovers rfl
    refine ⟨hrecords, ?_⟩
    rwa [visitedBytes_append, show visitedBytes [.flush] = [] from rfl, append_nil] at hvisited
  · rintro ⟨hrecords, hvisited⟩ -
    refine ⟨hrecords, ?_⟩
    rwa [visitedBytes_append, show visitedBytes [.flush] = [] from rfl, append_nil]

/-- A decoder that knows the members of one file. -/
def tableDecoder (members : List Member) : GzipMemberDecompressor where
  decompress buf := (members.find? fun m => m.compressed.isPrefixOf buf).map
    fun m => (m.content, m.compressed.length)

/-- It decodes nothing at an offset where none of them begins. -/
theorem tableDecoder_rejects (members : List Member) (bytes : Bytes)
    (hnone : ∀ m ∈ members, m.compressed.isPrefixOf bytes = false) (n : Nat) :
    (tableDecoder members).decompress (bytes.take n) = none := by
  rw [tableDecoder, Option.map_eq_none_iff, find?_eq_none]
  intro m hm hcut
  have hlong := isPrefixOf_iff_prefix.mp hcut
  have hwhole := isPrefixOf_iff_prefix.mpr (hlong.trans (List.take_prefix n _))
  rw [hnone m hm] at hwhole
  exact Bool.noConfusion hwhole

/-- Three members with stored blocks; the second one holds ten bytes that look like a
header, as a text about gzip files would. -/
def falseHeaderMembers : List Member :=
  [⟨[0x1F, 0x8B, 0x08, 0x00, 0x00, 0x00, 0x00, 0x00, 0x00, 0x03, 0x01, 0x02, 0x00, 0xFD, 0xFF, 0x61,
      0x0A, 0x07, 0xA1, 0xEA, 0xDD, 0x02, 0x00, 0x00, 0x00], [0x61, 0x0A]⟩,
    ⟨[0x1F, 0x8B, 0x08, 0x00, 0x00, 0x00, 0x00, 0x00, 0x00, 0x03, 0x01, 0x0B, 0x00, 0xF4, 0xFF, 0x1F,
      0x8B, 0x08, 0x00, 0x00, 0x00, 0x00, 0x00, 0x00, 0x03, 0x0A, 0xD2, 0x6B, 0x4C, 0x38, 0x0B, 0x00,
      0x00, 0x00], [0x1F, 0x8B, 0x08, 0x00, 0x00, 0x00, 0x00, 0x00, 0x00, 0x03, 0x0A]⟩,
    ⟨[0x1F, 0x8B, 0x08, 0x00, 0x00, 0x00, 0x00, 0x00, 0x00, 0x03, 0x01, 0x02, 0x00, 0xFD, 0xFF, 0x63,
      0x0A, 0x85, 0xC3, 0xDC, 0xEF, 0x02, 0x00, 0x00, 0x00], [0x63, 0x0A]⟩]

def falseHeaderFile : File :=
  ⟨falseHeaderMembers.flatMap Member.compressed, by decide⟩

/-- Channels that deliver in the order of sending, on a number of threads. -/
def inOrder (parallelism : Nat) : Schedule := ⟨parallelism, fun _ sent => sent, fun _ _ => .refl _⟩

theorem falseHeader_isGzipFile :
    IsGzipFile (tableDecoder falseHeaderMembers) falseHeaderFile falseHeaderMembers where
  concat := rfl
  someMember := cons_ne_nil _ _
  long := by decide
  decodes := by
    intro m hm rest
    rcases mem_cons.mp hm with rfl | hm
    · rfl
    · rcases mem_cons.mp hm with rfl | hm
      · rfl
      · rw [mem_singleton.mp hm]
        rfl
  truncated := by decide +kernel
  rejects := by
    intro offset hoffset
    apply tableDecoder_rejects
    rcases Nat.lt_or_ge offset 84 with hlt | hge
    · revert hoffset
      revert offset
      decide +kernel
    · rw [drop_eq_nil_of_le (Nat.le_trans (by decide) hge)]
      decide

/-- With two workers the second range begins at the false header, decodes nothing and
loses the last member, and the pass reports success. -/
theorem processChunks_loses_member :
    IsGzipFile (tableDecoder falseHeaderMembers) falseHeaderFile falseHeaderMembers ∧
      (processChunks (tableDecoder falseHeaderMembers) falseHeaderFile (inOrder 2) 0).1 = true ∧
      ¬ Covers falseHeaderMembers 0
        (processChunks (tableDecoder falseHeaderMembers) falseHeaderFile (inOrder 2) 0).2 := by
  refine ⟨falseHeader_isGzipFile, rfl, fun hcovers => ?_⟩
  have hlen := congrArg List.length hcovers.records
  revert hlen
  decide +kernel

/-- One worker walks the same file from its start and covers it. -/
theorem processChunks_covers_oneWorker :
    Covers falseHeaderMembers 0
      (processChunks (tableDecoder falseHeaderMembers) falseHeaderFile (inOrder 1) 0).2 := by
  refine (processChunks_covers_iff falseHeader_isGzipFile (inOrder 1) 0).mpr ⟨by decide +kernel, ?_⟩ rfl
  intro k hk
  refine ⟨0, ⟨by decide +kernel, ?_⟩, ?_⟩
  · revert hk
    revert k
    decide +kernel
  · rintro w ⟨hw, -⟩
    have hone : numWorkers (scannedMembers falseHeaderFile).length (inOrder 1).parallelism = 1 := by
      decide +kernel
    omega

end DFTracer.Gzip
