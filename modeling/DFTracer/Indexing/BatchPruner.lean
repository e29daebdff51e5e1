/-
# Pruning files one by one and in a batch

A file is pruned by its file blooms first and by its chunks then. A batch reads the chunk rows of
all its files at once and shares them among its items. An item takes the timestamp histograms out
of the shared rows, so an item that comes to the same file later has none. What it then answers
is the same as alone exactly when its query does without them.
-/

import DFTracer.Indexing.ChunkPruner
import DFTracer.Math.Fallible
import DFTracer.Math.Lists

namespace DFTracer.Indexing

open DFTracer.Query List

/-- A row of the dimension statistics of a chunk. -/
structure ChunkDimensionStatsRow where
  checkpointIdx : Nat
  dimension : String
  stats : ChunkDimensionStats

/-- A row of chunk statistics, with what pruning reads of it. -/
structure ChunkStatisticsRow where
  checkpointIdx : Nat
  timestampHistogram : TimestampHistogram

/-- The Bloom filter of a dimension of a chunk. -/
structure ChunkBloomRow where
  dimension : String
  checkpointIdx : Nat
  bloom : ScalableBloomFilter

/-- What an open index answers. A query that throws has no answer. -/
structure PrunerIndex where
  fileInfoId : String → Option Int
  fileBloomFilter : Int → String → Option (Option ScalableBloomFilter)
  chunkDimensionStats : Int → Option (List ChunkDimensionStatsRow)
  chunkStatistics : Int → Option (List ChunkStatisticsRow)
  chunkBloomFilters : Int → Option (List ChunkBloomRow)
  database : Int → IndexDatabase

/-- `ChunkPrunerBatchItem`. -/
structure ChunkPrunerItem where
  filePath : String
  query : QueryNode

/-- `ChunkPrunerOutput`. -/
structure ChunkPrunerOutput where
  fileMayMatch : Bool := false
  candidateCheckpoints : List Nat := []
  totalCheckpoints : Nat := 0
  success : Bool := false
deriving DecidableEq

/-- The output for a file that is not indexed, and after an exception. -/
def ChunkPrunerOutput.assumeMatch : ChunkPrunerOutput := { fileMayMatch := true, success := true }

/-- `collect_bloom_dimensions`. -/
def collectBloomDimensions : QueryNode → List String
  | .compare field op _ => if op = .eq then [field.path] else []
  | .isIn field _ => [field.path]
  | .and left right => collectBloomDimensions left ++ collectBloomDimensions right
  | .or left right => collectBloomDimensions left ++ collectBloomDimensions right
  | .not operand => collectBloomDimensions operand
  | _ => []

namespace PrunerContext

/-- A context with nothing of the chunks in it. -/
def ofDatabase (db : IndexDatabase) : PrunerContext where
  allChunks := ∅
  dimStats := fun _ _ => none
  bloomFilters := fun _ _ => none
  tsHistograms := fun _ => none
  db := some db

/-- `file_bloom_may_contain`. -/
def fileBloomMayContain (ctx : PrunerContext) (fileBlooms : String → Option ScalableBloomFilter)
    (dim val : String) : Bool :=
  match fileBlooms dim with
  | none => true
  | some bloom =>
    match ctx.resolveHashes dim val with
    | [] => bloom.possiblyContains val
    | resolved => resolved.any fun hash => bloom.possiblyContains hash

/-- `file_may_match`. -/
def fileMayMatch (ctx : PrunerContext) (fileBlooms : String → Option ScalableBloomFilter) :
    QueryNode → Bool
  | .compare field op value =>
    op != .eq || ctx.fileBloomMayContain fileBlooms field.path (literalToString value)
  | .isIn field values =>
    values.any fun value =>
      ctx.fileBloomMayContain fileBlooms field.path (literalToString value)
  | .and left right => fileMayMatch ctx fileBlooms left && fileMayMatch ctx fileBlooms right
  | .or left right => fileMayMatch ctx fileBlooms left || fileMayMatch ctx fileBlooms right
  | _ => true

/-- The context of a file with its chunk rows. A later row of a chunk replaces an earlier one, and
a histogram without bins is left out. -/
def load (db : IndexDatabase) (dimStats : List ChunkDimensionStatsRow)
    (chunkStats : List ChunkStatisticsRow) (blooms : List ChunkBloomRow) : PrunerContext where
  allChunks := (dimStats.map (·.checkpointIdx) ++ blooms.map (·.checkpointIdx)).toFinset
  dimStats := dimStats.foldl
    (fun stats row => Function.update stats row.checkpointIdx
      (Function.update (stats row.checkpointIdx) row.dimension (some row.stats)))
    fun _ _ => none
  tsHistograms := chunkStats.foldl
    (fun histograms row =>
      if row.timestampHistogram.bins = [] then histograms
      else Function.update histograms row.checkpointIdx (some row.timestampHistogram))
    fun _ => none
  bloomFilters := blooms.foldl
    (fun filters row => Function.update filters row.dimension
      (Function.update (filters row.dimension) row.checkpointIdx (some row.bloom)))
    fun _ _ => none
  db := some db

/-- The chunks of a loaded file that a query may match. -/
def prune (ctx : PrunerContext) (root : QueryNode) : ChunkPrunerOutput :=
  if ctx.allChunks = ∅ then .assumeMatch
  else
    { fileMayMatch := decide (ctx.evaluateNode root ≠ ∅)
      candidateCheckpoints := (ctx.evaluateNode root).sort
      totalCheckpoints := ctx.allChunks.sup id + 1
      success := true }

end PrunerContext

namespace PrunerIndex

variable (index : PrunerIndex)

/-- `file_survives_file_blooms`. -/
def fileSurvivesFileBlooms (fid : Int) (root : QueryNode) : Option Bool := do
  let dims := collectBloomDimensions root
  if dims = [] then some true
  else
    let blooms ← dims.mapM fun dim => (index.fileBloomFilter fid dim).map fun bloom => (dim, bloom)
    some ((PrunerContext.ofDatabase (index.database fid)).fileMayMatch
      (fun dim => (blooms.lookup dim).join) root)

end PrunerIndex

/-- `ChunkPrunerUtility::operator()`. An exception, of the opening too, assumes a match. -/
def pruneChunks (opened : Option PrunerIndex) (item : ChunkPrunerItem) : ChunkPrunerOutput :=
  let answer : Option ChunkPrunerOutput := do
    let index ← opened
    let fid ← index.fileInfoId item.filePath
    if fid < 0 then some .assumeMatch
    else
      let survives ← index.fileSurvivesFileBlooms fid item.query
      if survives = false then some { success := true }
      else
        let dimStats ← index.chunkDimensionStats fid
        let chunkStats ← index.chunkStatistics fid
        let blooms ← index.chunkBloomFilters fid
        some ((PrunerContext.load (index.database fid) dimStats chunkStats blooms).prune item.query)
  answer.getD .assumeMatch

/-- The rows of all files that are asked for, in one scan, which throws when a row of one of them
cannot be read. -/
def queryBatch {α : Type} (query : Int → Option (List α)) (fids : List Int) :
    Option (Int → List α) :=
  if ∀ fid ∈ fids, (query fid).isSome then
    some fun fid => if fid ∈ fids then (query fid).getD [] else []
  else none

theorem sorted_no_bins : ([] : List (Nat × Nat)).Pairwise (·.1 < ·.1) := .nil

/-- A row that a histogram has been moved out of. -/
def ChunkStatisticsRow.moved (row : ChunkStatisticsRow) : ChunkStatisticsRow :=
  { row with timestampHistogram := { row.timestampHistogram with bins := [], sorted := sorted_no_bins } }

namespace PrunerIndex

variable (index : PrunerIndex)

/-- One item of `process_batch`: its output, and the shared rows that it leaves. -/
def processItem (dimStats : Int → List ChunkDimensionStatsRow)
    (chunkStats : Int → List ChunkStatisticsRow) (fid : Int) (item : ChunkPrunerItem) :
    ChunkPrunerOutput × (Int → List ChunkStatisticsRow) :=
  if fid < 0 then (.assumeMatch, chunkStats)
  else
    match index.fileSurvivesFileBlooms fid item.query with
    | none => (.assumeMatch, chunkStats)
    | some false => ({ success := true }, chunkStats)
    | some true =>
      let left := Function.update chunkStats fid ((chunkStats fid).map ChunkStatisticsRow.moved)
      match index.chunkBloomFilters fid with
      | none => (.assumeMatch, left)
      | some blooms =>
        ((PrunerContext.load (index.database fid) (dimStats fid) (chunkStats fid)
          blooms).prune item.query, left)

/-- The loop of `process_batch`. -/
def processItems (dimStats : Int → List ChunkDimensionStatsRow) :
    (Int → List ChunkStatisticsRow) → List (Int × ChunkPrunerItem) → List ChunkPrunerOutput
  | _, [] => []
  | chunkStats, (fid, item) :: items =>
    let (out, left) := index.processItem dimStats chunkStats fid item
    out :: processItems dimStats left items

end PrunerIndex

/-- `ChunkPrunerUtility::process_batch`. Nothing is its error. -/
def processBatch (opened : Option PrunerIndex) (items : List ChunkPrunerItem) :
    Option (List ChunkPrunerOutput) := do
  let index ← opened
  let itemToFid ← items.mapM fun item => index.fileInfoId item.filePath
  let fids := itemToFid.filter fun fid => 0 ≤ fid
  let dimStats ← queryBatch index.chunkDimensionStats fids
  let chunkStats ← queryBatch index.chunkStatistics fids
  some (index.processItems dimStats chunkStats (itemToFid.zip items))

/-! ## When a batch answers as one by one

The shared rows of a file lose their histograms to the first item that survives its file blooms,
and nothing else of them changes. So an item is answered as alone when it comes first to its file,
and otherwise exactly when the chunks of its query are the same without the histograms. -/

/-- A context whose histograms are left out. -/
def PrunerContext.withoutHistograms (ctx : PrunerContext) : PrunerContext :=
  { ctx with tsHistograms := fun _ => none }

theorem PrunerContext.load_moved (db : IndexDatabase) (dimStats : List ChunkDimensionStatsRow)
    (chunkStats : List ChunkStatisticsRow) (blooms : List ChunkBloomRow) :
    load db dimStats (chunkStats.map ChunkStatisticsRow.moved) blooms =
      (load db dimStats chunkStats blooms).withoutHistograms := by
  have none : ∀ histograms : Nat → Option TimestampHistogram,
      (chunkStats.map ChunkStatisticsRow.moved).foldl
        (fun (histograms : Nat → Option TimestampHistogram) row =>
          if row.timestampHistogram.bins = [] then histograms
          else Function.update histograms row.checkpointIdx (some row.timestampHistogram))
        histograms = histograms := by
    intro histograms
    induction chunkStats with
    | nil => rfl
    | cons row rows ih =>
      exact ih
  rw [load, withoutHistograms, load, none]

/-- An output tells the chunks that a query keeps. -/
theorem PrunerContext.prune_withoutHistograms_iff (ctx : PrunerContext) (root : QueryNode) :
    ctx.withoutHistograms.prune root = ctx.prune root ↔
      (ctx.allChunks ≠ ∅ → ctx.withoutHistograms.evaluateNode root = ctx.evaluateNode root) := by
  rw [prune, prune]
  change (if ctx.allChunks = ∅ then _ else _) = _ ↔ _
  by_cases empty : ctx.allChunks = ∅
  · rw [if_pos empty, if_pos empty]
    exact iff_of_true rfl fun some => absurd empty some
  · rw [if_neg empty, if_neg empty, imp_iff_right empty]
    constructor
    · intro same
      have sorted := congrArg ChunkPrunerOutput.candidateCheckpoints same
      have chunks := congrArg List.toFinset sorted
      rwa [Finset.sort_toFinset, Finset.sort_toFinset] at chunks
    · intro same
      rw [same]
      rfl

namespace PrunerIndex

variable (index : PrunerIndex) (dimStats : Int → List ChunkDimensionStatsRow)
  (chunkStats : Int → List ChunkStatisticsRow) {fid : Int} {item : ChunkPrunerItem}

/-- The item comes to the chunk rows of its file, and takes the histograms out of them. -/
def Takes (fid : Int) (item : ChunkPrunerItem) : Prop :=
  0 ≤ fid ∧ index.fileSurvivesFileBlooms fid item.query = some true

/-- The query of an item that comes to the chunks of its file keeps the same ones without the
histograms. -/
def Indifferent (fid : Int) (item : ChunkPrunerItem) : Prop :=
  index.Takes fid item → ∀ dimStats chunkStats blooms,
    index.chunkDimensionStats fid = some dimStats → index.chunkStatistics fid = some chunkStats →
    index.chunkBloomFilters fid = some blooms →
    (PrunerContext.load (index.database fid) dimStats chunkStats blooms).allChunks ≠ ∅ →
    (PrunerContext.load (index.database fid) dimStats chunkStats
        blooms).withoutHistograms.evaluateNode item.query =
      (PrunerContext.load (index.database fid) dimStats chunkStats blooms).evaluateNode item.query

/-- The shared rows after an item. -/
theorem processItem_snd (fid : Int) (item : ChunkPrunerItem) [Decidable (index.Takes fid item)] :
    (index.processItem dimStats chunkStats fid item).2 =
      if index.Takes fid item then
        Function.update chunkStats fid ((chunkStats fid).map ChunkStatisticsRow.moved)
      else chunkStats := by
  rw [processItem]
  by_cases absent : fid < 0
  · rw [if_pos absent, if_neg fun takes => absurd takes.1 (by omega)]
  · rw [if_neg absent]
    cases survives : index.fileSurvivesFileBlooms fid item.query with
    | none => rw [if_neg fun takes => by cases survives.symm.trans takes.2]
    | some survives' =>
      cases survives' with
      | false => rw [if_neg fun takes => by cases survives.symm.trans takes.2]
      | true =>
        rw [if_pos ⟨by omega, survives⟩]
        cases index.chunkBloomFilters fid <;> rfl

/-- With the rows that the index has, an item is answered as alone. -/
theorem processItem_fst (found : index.fileInfoId item.filePath = some fid)
    (dims : 0 ≤ fid → index.chunkDimensionStats fid = some (dimStats fid))
    (stats : 0 ≤ fid → index.chunkStatistics fid = some (chunkStats fid)) :
    (index.processItem dimStats chunkStats fid item).1 = pruneChunks (some index) item := by
  rw [pruneChunks, processItem]
  simp only [Option.bind_eq_bind, Option.bind_some, found]
  by_cases absent : fid < 0
  · rw [if_pos absent, if_pos absent]
    rfl
  · rw [if_neg absent, if_neg absent, dims (by omega), stats (by omega)]
    cases index.fileSurvivesFileBlooms fid item.query with
    | none => rfl
    | some survives =>
      cases survives with
      | false => rfl
      | true => cases index.chunkBloomFilters fid <;> rfl

/-- Without its histograms an item is answered as before if and only if it does without them. -/
theorem processItem_moved_iff {left : Int → List ChunkStatisticsRow}
    (dims : 0 ≤ fid → index.chunkDimensionStats fid = some (dimStats fid))
    (stats : 0 ≤ fid → index.chunkStatistics fid = some (chunkStats fid))
    (moved : left fid = (chunkStats fid).map ChunkStatisticsRow.moved) :
    (index.processItem dimStats left fid item).1 =
        (index.processItem dimStats chunkStats fid item).1 ↔
      index.Indifferent fid item := by
  rw [processItem, processItem]
  by_cases absent : fid < 0
  · rw [if_pos absent, if_pos absent]
    exact iff_of_true rfl fun takes => absurd takes.1 (by omega)
  · rw [if_neg absent, if_neg absent]
    cases survives : index.fileSurvivesFileBlooms fid item.query with
    | none => exact iff_of_true rfl fun takes => by cases survives.symm.trans takes.2
    | some survives' =>
      cases survives' with
      | false => exact iff_of_true rfl fun takes => by cases survives.symm.trans takes.2
      | true =>
        cases blooms : index.chunkBloomFilters fid with
        | none =>
          refine iff_of_true rfl fun _ _ _ _ _ _ read => ?_
          cases blooms.symm.trans read
        | some rows =>
          change (PrunerContext.load _ _ (left fid) rows).prune _ =
            (PrunerContext.load _ _ (chunkStats fid) rows).prune _ ↔ _
          rw [moved, PrunerContext.load_moved, PrunerContext.prune_withoutHistograms_iff]
          constructor
          · intro same _ dims' stats' blooms' dimsRead statsRead bloomsRead
            cases (dims (by omega)).symm.trans dimsRead
            cases (stats (by omega)).symm.trans statsRead
            cases blooms.symm.trans bloomsRead
            exact same
          · intro indifferent
            exact indifferent ⟨by omega, survives⟩ _ _ _ (dims (by omega))
              (stats (by omega)) blooms

/-- The shared rows after some items. -/
def leftAfter (items : List (Int × ChunkPrunerItem)) : Int → List ChunkStatisticsRow :=
  items.foldl (fun left item => (index.processItem dimStats left item.1 item.2).2) chunkStats

/-- An item takes the histograms of a file out of the shared rows, or leaves the file alone. -/
theorem processItem_snd_apply (fid : Int) (item : Int × ChunkPrunerItem) :
    (item.1 = fid ∧ index.Takes fid item.2 ∧
        (index.processItem dimStats chunkStats item.1 item.2).2 fid =
          (chunkStats fid).map ChunkStatisticsRow.moved) ∨
      ¬ (item.1 = fid ∧ index.Takes fid item.2) ∧
        (index.processItem dimStats chunkStats item.1 item.2).2 fid = chunkStats fid := by
  classical
  rw [processItem_snd]
  by_cases same : item.1 = fid
  · subst same
    by_cases takes : index.Takes item.1 item.2
    · exact .inl ⟨rfl, takes, by rw [if_pos takes, Function.update_self]⟩
    · exact .inr ⟨fun both => takes both.2, by rw [if_neg takes]⟩
  · refine .inr ⟨fun both => same both.1, ?_⟩
    by_cases takes : index.Takes item.1 item.2
    · rw [if_pos takes, Function.update_of_ne (Ne.symm same)]
    · rw [if_neg takes]

theorem leftAfter_of_untaken (items : List (Int × ChunkPrunerItem)) (fid : Int)
    (untaken : ¬ ∃ item ∈ items, item.1 = fid ∧ index.Takes fid item.2) :
    index.leftAfter dimStats chunkStats items fid = chunkStats fid := by
  induction items generalizing chunkStats with
  | nil => rfl
  | cons item items ih =>
    rw [exists_mem_cons_iff, not_or] at untaken
    rcases index.processItem_snd_apply dimStats chunkStats fid item with
      ⟨same, takes, _⟩ | ⟨_, kept⟩
    · exact absurd ⟨same, takes⟩ untaken.1
    · rw [← kept]
      exact ih _ untaken.2

theorem leftAfter_of_taken (items : List (Int × ChunkPrunerItem)) (fid : Int)
    (taken : ∃ item ∈ items, item.1 = fid ∧ index.Takes fid item.2) :
    index.leftAfter dimStats chunkStats items fid =
      (chunkStats fid).map ChunkStatisticsRow.moved := by
  induction items generalizing chunkStats with
  | nil =>
    obtain ⟨item, listed, _⟩ := taken
    cases listed
  | cons item items ih =>
    have once := index.processItem_snd_apply dimStats chunkStats fid item
    have again : ((chunkStats fid).map ChunkStatisticsRow.moved).map ChunkStatisticsRow.moved =
        (chunkStats fid).map ChunkStatisticsRow.moved := by
      rw [map_map]
      rfl
    rw [leftAfter, foldl_cons]
    by_cases later : ∃ item ∈ items, item.1 = fid ∧ index.Takes fid item.2
    · have moved := ih (index.processItem dimStats chunkStats item.1 item.2).2 later
      rw [leftAfter] at moved
      rw [moved]
      rcases once with ⟨_, _, taken⟩ | ⟨_, kept⟩
      · rw [taken, again]
      · rw [kept]
    · have kept := index.leftAfter_of_untaken dimStats
        (index.processItem dimStats chunkStats item.1 item.2).2 items fid later
      rw [leftAfter] at kept
      rw [kept]
      rcases once with ⟨_, _, taken⟩ | ⟨untaken, _⟩
      · exact taken
      · rw [exists_mem_cons_iff] at taken
        exact absurd (taken.resolve_right later) untaken

/-- The outputs of the loop, each with the rows that the items before it leave. -/
theorem processItems_eq_map_iff (answer : Int × ChunkPrunerItem → ChunkPrunerOutput)
    (items : List (Int × ChunkPrunerItem)) :
    index.processItems dimStats chunkStats items = items.map answer ↔
      ∀ before item after, items = before ++ item :: after →
        (index.processItem dimStats (index.leftAfter dimStats chunkStats before) item.1
          item.2).1 = answer item := by
  induction items generalizing chunkStats with
  | nil =>
    refine iff_of_true rfl fun before item after split => ?_
    exact absurd split.symm (append_ne_nil_of_right_ne_nil _ (cons_ne_nil _ _))
  | cons first items ih =>
    rw [processItems, map_cons, cons_eq_cons, ih]
    constructor
    · rintro ⟨here, later⟩ before item after split
      cases before with
      | nil =>
        cases split
        exact here
      | cons _ before =>
        cases split
        exact later before item after rfl
    · intro all
      refine ⟨all [] first items rfl, fun before item after split => ?_⟩
      exact all (first :: before) item after (by rw [split, cons_append])

end PrunerIndex

/-! ### The batch -/

/-- All that a batch reads before its items can be read. -/
def PrunerIndex.Readable (index : PrunerIndex) (items : List ChunkPrunerItem) : Prop :=
  ∀ item ∈ items, ∃ fid, index.fileInfoId item.filePath = some fid ∧
    (0 ≤ fid → (index.chunkDimensionStats fid).isSome ∧ (index.chunkStatistics fid).isSome)

variable {α : Type} {query : Int → Option (List α)} {fids : List Int}

theorem queryBatch_eq_some
    {rows : Int → List α} (read : queryBatch query fids = some rows) {fid : Int}
    (wanted : fid ∈ fids) : query fid = some (rows fid) := by
  rw [queryBatch] at read
  split at read
  · rename_i all
    cases read
    obtain ⟨found, read⟩ := Option.isSome_iff_exists.mp (all fid wanted)
    change query fid = some (if fid ∈ fids then (query fid).getD [] else [])
    rw [if_pos wanted, read, Option.getD_some]
  · cases read

theorem queryBatch_eq_none
    (failed : queryBatch query fids = none) : ∃ fid ∈ fids, ¬ (query fid).isSome := by
  rw [queryBatch] at failed
  split at failed
  · cases failed
  · rename_i some
    push Not at some
    exact some

/-- What a batch reads of its files. -/
structure PrunerIndex.Reads (index : PrunerIndex) (items : List ChunkPrunerItem)
    (fid : ChunkPrunerItem → Int) (dimStats : Int → List ChunkDimensionStatsRow)
    (chunkStats : Int → List ChunkStatisticsRow) : Prop where
  found : ∀ item ∈ items, index.fileInfoId item.filePath = some (fid item)
  dims : ∀ item ∈ items, 0 ≤ fid item →
    index.chunkDimensionStats (fid item) = some (dimStats (fid item))
  stats : ∀ item ∈ items, 0 ≤ fid item →
    index.chunkStatistics (fid item) = some (chunkStats (fid item))

/-- A batch that can be read goes through its items, and any other has no outputs. -/
theorem processBatch_cases (index : PrunerIndex) (items : List ChunkPrunerItem) :
    (∃ fid dimStats chunkStats, index.Reads items fid dimStats chunkStats ∧
        processBatch (some index) items =
          some (index.processItems dimStats chunkStats (items.map fun item => (fid item, item)))) ∨
      ¬ index.Readable items ∧ processBatch (some index) items = none := by
  rw [processBatch]
  simp only [Option.bind_eq_bind, Option.bind_some]
  cases ids : items.mapM fun item => index.fileInfoId item.filePath with
  | none =>
    refine .inr ⟨fun readable => ?_, rfl⟩
    obtain ⟨item, listed, lost⟩ := Math.mapM_eq_none ids
    obtain ⟨fid, found, _⟩ := readable item listed
    cases lost.symm.trans found
  | some fids =>
    obtain ⟨same, found⟩ := Math.mapM_eq_some_getD ids
    have wanted : ∀ item ∈ items, 0 ≤ (index.fileInfoId item.filePath).getD 0 →
        (index.fileInfoId item.filePath).getD 0 ∈ fids.filter fun fid => 0 ≤ fid := by
      intro item listed there
      rw [same, mem_filter]
      exact ⟨mem_map_of_mem listed, decide_eq_true there⟩
    have asked : ∀ fid ∈ fids.filter fun fid => 0 ≤ fid, ∃ item ∈ items,
        index.fileInfoId item.filePath = some fid ∧ 0 ≤ fid := by
      intro fid listed
      rw [same, mem_filter, mem_map] at listed
      obtain ⟨⟨item, listed, rfl⟩, there⟩ := listed
      exact ⟨item, listed, found item listed, of_decide_eq_true there⟩
    simp only [Option.bind_some]
    cases dims : queryBatch index.chunkDimensionStats (fids.filter fun fid => 0 ≤ fid) with
    | none =>
      refine .inr ⟨fun readable => ?_, rfl⟩
      obtain ⟨fid, listed, lost⟩ := queryBatch_eq_none dims
      obtain ⟨item, listed, here, there⟩ := asked fid listed
      obtain ⟨fid', here', read⟩ := readable item listed
      cases here.symm.trans here'
      exact lost (read there).1
    | some dimStats =>
      simp only [Option.bind_some]
      cases stats : queryBatch index.chunkStatistics (fids.filter fun fid => 0 ≤ fid) with
      | none =>
        refine .inr ⟨fun readable => ?_, rfl⟩
        obtain ⟨fid, listed, lost⟩ := queryBatch_eq_none stats
        obtain ⟨item, listed, here, there⟩ := asked fid listed
        obtain ⟨fid', here', read⟩ := readable item listed
        cases here.symm.trans here'
        exact lost (read there).2
      | some chunkStats =>
        refine .inl ⟨_, dimStats, chunkStats, ⟨found, ?_, ?_⟩, ?_⟩
        · exact fun item listed there => queryBatch_eq_some dims (wanted item listed there)
        · exact fun item listed there => queryBatch_eq_some stats (wanted item listed there)
        · rw [Option.bind_some, same, Math.zip_map_self]

section Reads

variable {index : PrunerIndex} {items : List ChunkPrunerItem} {fid : ChunkPrunerItem → Int}
  {dimStats : Int → List ChunkDimensionStatsRow} {chunkStats : Int → List ChunkStatisticsRow}

theorem PrunerIndex.Reads.readable (reads : index.Reads items fid dimStats chunkStats) :
    index.Readable items := by
  intro item listed
  refine ⟨fid item, reads.found item listed, fun there => ?_⟩
  rw [reads.dims item listed there, reads.stats item listed there]
  exact ⟨rfl, rfl⟩

/-- An item after some others is answered as alone if and only if none of them has taken the
histograms of its file, or it does without them. -/
theorem PrunerIndex.Reads.processItem_iff (reads : index.Reads items fid dimStats chunkStats)
    {before after : List ChunkPrunerItem} {item : ChunkPrunerItem}
    (split : items = before ++ item :: after) :
    (index.processItem dimStats
        (index.leftAfter dimStats chunkStats (before.map fun item => (fid item, item)))
        (fid item) item).1 = pruneChunks (some index) item ↔
      ((∃ earlier ∈ before, index.fileInfoId earlier.filePath = some (fid item) ∧
          index.Takes (fid item) earlier) → index.Indifferent (fid item) item) := by
  have listed : item ∈ items := by
    rw [split]
    exact mem_append_right _ mem_cons_self
  have earlierListed : ∀ earlier ∈ before, earlier ∈ items := by
    intro earlier first
    rw [split]
    exact mem_append_left _ first
  have taken : (∃ e ∈ before.map fun item => (fid item, item), e.1 = fid item ∧
        index.Takes (fid item) e.2) ↔
      ∃ earlier ∈ before, index.fileInfoId earlier.filePath = some (fid item) ∧
        index.Takes (fid item) earlier := by
    simp only [mem_map, exists_exists_and_eq_and]
    refine exists_congr fun earlier => and_congr_right fun first => ?_
    rw [reads.found earlier (earlierListed earlier first), Option.some_inj]
  by_cases gone : ∃ earlier ∈ before, index.fileInfoId earlier.filePath = some (fid item) ∧
      index.Takes (fid item) earlier
  · rw [imp_iff_right gone, ← index.processItem_fst dimStats chunkStats (reads.found item listed)
      (reads.dims item listed) (reads.stats item listed)]
    exact index.processItem_moved_iff dimStats chunkStats (reads.dims item listed)
      (reads.stats item listed)
      (index.leftAfter_of_taken dimStats chunkStats _ _ (taken.mpr gone))
  · refine iff_of_true ?_ fun found => absurd found gone
    have kept := index.leftAfter_of_untaken dimStats chunkStats _ _ (mt taken.mp gone)
    apply index.processItem_fst dimStats _ (reads.found item listed) (reads.dims item listed)
    rw [kept]
    exact reads.stats item listed

end Reads

/-- A batch answers each item as the pruning of its file alone if and only if the index can be
opened and read, and an item that comes to the chunks of a file after another item has taken the
histograms of that file keeps the same chunks without them. -/
theorem processBatch_eq_map_iff (opened : Option PrunerIndex) (items : List ChunkPrunerItem) :
    processBatch opened items = some (items.map (pruneChunks opened)) ↔
      ∃ index, opened = some index ∧ index.Readable items ∧
        ∀ before item after, items = before ++ item :: after → ∀ fid,
          index.fileInfoId item.filePath = some fid →
          (∃ earlier ∈ before, index.fileInfoId earlier.filePath = some fid ∧
            index.Takes fid earlier) →
          index.Indifferent fid item := by
  cases opened with
  | none =>
    refine iff_of_false (fun same => ?_) ?_
    · cases same
    · rintro ⟨_, impossible, _⟩
      cases impossible
  | some index =>
    rcases processBatch_cases index items with
      ⟨fid, dimStats, chunkStats, reads, outputs⟩ | ⟨unread, none⟩
    · have pairs : items.map (pruneChunks (some index)) =
          (items.map fun item => (fid item, item)).map fun e => pruneChunks (some index) e.2 := by
        rw [map_map]
        rfl
      rw [outputs, Option.some_inj, pairs, index.processItems_eq_map_iff]
      constructor
      · intro all
        refine ⟨index, rfl, reads.readable, fun before item after split fid' found => ?_⟩
        have listed : item ∈ items := by
          rw [split]
          exact mem_append_right _ mem_cons_self
        cases found.symm.trans (reads.found item listed)
        apply (reads.processItem_iff split).mp
        exact all (before.map _) (fid item, item) (after.map _)
          (by rw [split, map_append, map_cons])
      · rintro ⟨index', same, _, all⟩ before e after split
        cases same
        obtain ⟨before', rest, split', rfl, restMap⟩ := map_eq_append_iff.mp split
        obtain ⟨item, after', rfl, rfl, rfl⟩ := map_eq_cons_iff.mp restMap
        have listed : item ∈ items := by
          rw [split']
          exact mem_append_right _ mem_cons_self
        apply (reads.processItem_iff split').mpr
        exact all before' item after' split' (fid item) (reads.found item listed)
    · rw [none]
      refine iff_of_false (fun same => ?_) ?_
      · cases same
      · rintro ⟨index', same, readable, _⟩
        cases same
        exact unread readable

/-- An index of one file with one chunk, which has one event, at microsecond 5. -/
def oneEventIndex : PrunerIndex where
  fileInfoId := fun path => some (if path = "trace.pfw.gz" then 0 else -1)
  fileBloomFilter := fun _ _ => some none
  chunkDimensionStats := fun fid =>
    some (if fid = 0 then [⟨0, "ts", (ChunkDimensionStats.empty .uint).observeRangeOnly 5⟩] else [])
  chunkStatistics := fun fid =>
    some (if fid = 0 then [⟨0, TimestampHistogram.empty.add 5⟩] else [])
  chunkBloomFilters := fun _ => some []
  database := fun _ => ⟨fun _ => none, fun _ => false, fun _ => ∅, fun _ _ => none⟩

/-- All events until the last microsecond. -/
def untilLast : ChunkPrunerItem :=
  ⟨"trace.pfw.gz", .compare ⟨"ts", by decide⟩ .le (.uint64 18446744073709551615)⟩

theorem oneEventIndex_twice :
    (processBatch (some oneEventIndex) [untilLast, untilLast]).map
      (fun outputs => outputs.map ChunkPrunerOutput.fileMayMatch) = some [false, true] := by
  decide +kernel

/-- The second of two equal items is answered otherwise than alone. -/
theorem processBatch_differs :
    processBatch (some oneEventIndex) [untilLast, untilLast] ≠
      some ([untilLast, untilLast].map (pruneChunks (some oneEventIndex))) := by
  intro same
  have twice := oneEventIndex_twice
  rw [same] at twice
  have second := congrArg (fun found : Option (List Bool) => found.map List.getLast?) twice
  cases second

end DFTracer.Indexing
