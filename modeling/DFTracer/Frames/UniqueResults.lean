/-
# The streaming distinct against the distinct

The streaming distinct sends out the first row of every distinct key, in the order of the
input, when the keys tell the rows apart and either no row with a new key comes after the
budget is exceeded, or every column comes out of run files as it went in. Otherwise a row is
lost, or the types of the columns change, or the stream fails.
-/

import DFTracer.Frames.UniqueSpill

namespace DFTracer.Frames

open DFTracer.Math List

variable {p : UniquePlan} {s s' : UniqueState p} {ms : List (Morsel p.Row)} {n : Nat}
  {done rows : List p.Row} {types : List DataType}

/-- The cursor sends out these morsels and then ends. -/
inductive Emits : UniqueState p → List (Morsel p.Row) → Prop
  | done {s s' : UniqueState p} (h : s.next = .ok (none, s')) : Emits s []
  | more {s s' : UniqueState p} {m : Morsel p.Row} {ms : List (Morsel p.Row)}
      (h : s.next = .ok (some m, s')) (rest : Emits s' ms) : Emits s (m :: ms)

theorem Emits.congr (h : s.next = s'.next) :
    Emits s ms ↔ Emits s' ms := by
  constructor
  · rintro (h' | ⟨h', rest⟩)
    · exact .done (h ▸ h')
    · exact .more (h ▸ h') rest
  · rintro (h' | ⟨h', rest⟩)
    · exact .done (h ▸ h')
    · exact .more (h ▸ h') rest

theorem Emits.of_error {e : InvalidArgument} (h : s.next = .error e)
    (ms : List (Morsel p.Row)) : ¬ Emits s ms := by
  rintro (h' | ⟨h', _⟩)
  · rw [h] at h'
    cases h'
  · rw [h] at h'
    cases h'

theorem Emits.of_more {m : Morsel p.Row}
    (h : s.next = .ok (some m, s')) : Emits s ms ↔ ∃ ms', ms = m :: ms' ∧ Emits s' ms' := by
  constructor
  · rintro (h' | ⟨h', rest⟩)
    · rw [h] at h'
      cases h'
    · rw [h] at h'
      cases h'
      exact ⟨_, rfl, rest⟩
  · rintro ⟨ms', rfl, rest⟩
    exact .more h rest

theorem Emits.unique {ms' : List (Morsel p.Row)} (h : Emits s ms)
    (h' : Emits s ms') : ms = ms' := by
  induction h generalizing ms' with
  | done hnext =>
    rcases h' with h' | ⟨h', _⟩
    · rfl
    · rw [hnext] at h'
      cases h'
  | more hnext _ ih =>
    obtain ⟨ms'', rfl, hrest⟩ := (Emits.of_more hnext).mp h'
    rw [ih hrest]

/-- Collecting within a number of calls is emitting fewer morsels. -/
theorem collect_eq :
    s.collect n = .ok (some ms) ↔ Emits s ms ∧ ms.length < n := by
  induction n generalizing s ms with
  | zero =>
    constructor
    · intro h
      cases h
    · exact fun h => absurd h.2 (Nat.not_lt_zero _)
  | succ n ih =>
    rw [UniqueState.collect]
    cases hnext : s.next with
    | error e =>
      constructor
      · intro h
        cases h
      · exact fun h => absurd h.1 (Emits.of_error hnext ms)
    | ok r =>
      obtain ⟨m, s'⟩ := r
      cases m with
      | none =>
        constructor
        · intro h
          cases h
          exact ⟨.done hnext, Nat.succ_pos n⟩
        · rintro ⟨h' | ⟨h', _⟩, _⟩
          · rfl
          · rw [hnext] at h'
            cases h'
      | some m =>
        rw [Emits.of_more hnext]
        cases hrest : s'.collect n with
        | error e =>
          constructor
          · intro h
            simp only [bind, Except.bind, hrest] at h
            cases h
          · rintro ⟨⟨ms', rfl, hms⟩, hlen⟩
            rw [ih.mpr ⟨hms, Nat.lt_of_succ_lt_succ hlen⟩] at hrest
            cases hrest
        | ok r =>
          simp only [bind, Except.bind, hrest]
          constructor
          · intro h
            cases r with
            | none => cases h
            | some ms' =>
              cases h
              obtain ⟨hms, hlen⟩ := ih.mp hrest
              exact ⟨⟨ms', rfl, hms⟩, Nat.succ_lt_succ hlen⟩
          · rintro ⟨⟨ms', rfl, hms⟩, hlen⟩
            rw [ih.mpr ⟨hms, Nat.lt_of_succ_lt_succ hlen⟩] at hrest
            cases hrest
            rfl

/-- The size of the keys of rows in memory. -/
def heldBytes (p : UniquePlan) (rows : List p.Row) : Nat :=
  ((firsts p.key [] rows).map fun r => (p.key r).length % 2 ^ 32 + dedupEntryOverhead).sum

/-- The keys of these rows exceed the budget. -/
def OverBudget (p : UniquePlan) (rows : List p.Row) : Prop :=
  0 < p.budget ∧ p.budget < heldBytes p rows

instance (rows : List p.Row) : Decidable (OverBudget p rows) := inferInstanceAs (Decidable (_ ∧ _))

/-- The rows up to the morsel whose keys exceed the budget, and the rows after it. -/
def heldPart (p : UniquePlan) : List p.Row → List (List p.Row) → List p.Row × List p.Row
  | done, [] => (done, [])
  | done, rows :: rest =>
    if OverBudget p (done ++ rows) then (done ++ rows, rest.flatten)
    else heldPart p (done ++ rows) rest

/-- The state after these rows were read in memory. -/
structure Fast (s : UniqueState p) (done : List p.Row) : Prop where
  known : Known p.hash s.seen (done.map p.key)
  bytes : s.fastBytes = heldBytes p done
  spilling : s.spilling = decide (OverBudget p done)
  drained : s.drained = false

theorem Fast.start (input : List (List p.Row)) : Fast (UniqueState.start p input) [] where
  known := by
    intro k
    unfold alreadySeen UniqueState.start
    cases p.parallel with
    | false => simp
    | true =>
      split <;> simp
  bytes := rfl
  spilling := by
    symm
    apply decide_eq_false
    intro h
    exact absurd h.2 (Nat.not_lt_zero _)
  drained := rfl

/-- Reading a morsel in memory keeps the rows of new keys. -/
theorem fastPhase_cons (h : Fast s done) (rows : List p.Row) (rest : List (List p.Row)) :
    ∃ s', Fast s' (done ++ rows) ∧ s'.input = rest ∧ fastPhase s (rows :: rest) =
      if firsts p.key (done.map p.key) rows ≠ [] then
        .ok (some ⟨p.types, firsts p.key (done.map p.key) rows⟩, s')
      else if s'.spilling then .ok (none, s') else fastPhase s' rest := by
  have hkeep : take rows ((List.range rows.length).filter fun i =>
      i ∈ (firstSeenMask p.hash (rows.map p.key) s.seen).1) =
        firsts p.key (done.map p.key) rows :=
    take_marked (mem_firstSeenMask h.known (rows.map p.key))
  have hknown := firstSeenMask_known h.known (rows.map p.key)
  rw [← map_append] at hknown
  have hbytes : s.fastBytes + ((take (rows.map p.key) ((List.range rows.length).filter fun i =>
      i ∈ (firstSeenMask p.hash (rows.map p.key) s.seen).1)).map fun k =>
        k.length % 2 ^ 32 + dedupEntryOverhead).sum = heldBytes p (done ++ rows) := by
    rw [take_map, hkeep, h.bytes, heldBytes, heldBytes, firsts_append, map_append, sum_append,
      map_map]
    rfl
  have hnil : (List.range rows.length).filter (fun i =>
      i ∈ (firstSeenMask p.hash (rows.map p.key) s.seen).1) = [] ↔
        firsts p.key (done.map p.key) rows = [] := by
    rw [← hkeep, take_filter_range_eq_nil]
  refine ⟨{ s with
    input := rest
    seen := (firstSeenMask p.hash (rows.map p.key) s.seen).2
    fastBytes := heldBytes p (done ++ rows)
    nextRowId := s.nextRowId + rows.length
    spilling := decide (OverBudget p (done ++ rows)) }, ⟨hknown, rfl, rfl, h.drained⟩, rfl, ?_⟩
  rw [fastPhase, rowKeys_ok rfl]
  simp only [bind, Except.bind, hkeep, hbytes, ne_eq, hnil]
  rfl

/-- The morsel of the rows of new keys, if there are any. -/
def sentFrom (p : UniquePlan) (rows : List p.Row) : List (Morsel p.Row) :=
  if rows = [] then [] else [⟨p.types, rows⟩]

/-- One morsel read in memory: its new rows go out, and the stream goes on. -/
theorem Emits.fast_cons {rest : List (List p.Row)}
    (h : Fast s done) (hspill : s.spilling = false) (hinput : s.input = rows :: rest) :
    ∃ s', Fast s' (done ++ rows) ∧ s'.input = rest ∧ ∀ ms, Emits s ms ↔
      ∃ ms', ms = sentFrom p (firsts p.key (done.map p.key) rows) ++ ms' ∧ Emits s' ms' := by
  obtain ⟨s', hfast, hrest, hphase⟩ := fastPhase_cons h rows rest
  refine ⟨s', hfast, hrest, fun ms => ?_⟩
  by_cases hnew : firsts p.key (done.map p.key) rows = []
  · rw [if_neg (not_not_intro hnew)] at hphase
    have hnext : s.next = s'.next := by
      unfold UniqueState.next
      rw [if_neg (by simp [hspill]), hinput, hphase]
      by_cases hs : s'.spilling = true
      · rw [if_pos hs, if_pos hs]
      · rw [if_neg hs, if_neg hs, hrest]
    rw [sentFrom, if_pos hnew, Emits.congr hnext]
    simp
  · rw [if_pos hnew] at hphase
    have hnext : s.next = .ok (some ⟨p.types, firsts p.key (done.map p.key) rows⟩, s') := by
      unfold UniqueState.next
      rw [if_neg (by simp [hspill]), hinput, hphase]
      rfl
    rw [Emits.of_more hnext, sentFrom, if_neg hnew]
    rfl

/-- The rows of a run that are still to come, with the types of its columns. -/
def Run.left (r : Run p) : List (List DataType × p.Tagged) :=
  match r.cur with
  | none => []
  | some m => (m.rows.drop r.pos).map fun t => (m.types, t)

theorem run_reads : Reads (Run.head (p := p)) Run.pop Run.left where
  head := by
    rintro ⟨cur, pos⟩
    cases cur with
    | none => rfl
    | some m =>
      change (m.rows[pos]?).map _ = ((m.rows.drop pos).map _).head?
      rw [head?_map, head?_drop]
  pop := by
    rintro ⟨cur, pos⟩
    cases cur with
    | none => rfl
    | some m =>
      change Run.left ⟨(some m).filter _, pos + 1⟩ = ((m.rows.drop pos).map _).tail
      rw [← map_tail, tail_drop]
      by_cases hpos : pos + 1 < m.rows.length
      · rw [Option.filter_some_pos (by simpa using hpos)]
        rfl
      · rw [Option.filter_some_neg (by simpa using hpos),
          drop_eq_nil_of_le (Nat.le_of_not_lt hpos)]
        rfl

/-- The runs hold these rows, all with the same types of columns. -/
abbrev Merging (types : List DataType) (rows : List p.Tagged) (runs : List (Run p)) : Prop :=
  Pending (fun x : List DataType × p.Tagged => x.2.1) Run.left (rows.map fun t => (types, t)) runs

/-- A merge sends out the next rows in order. -/
theorem mergeNext_ok {rows : List p.Tagged}
    (h : Merging types rows s.runs) (supported : ∀ d ∈ types, concatSupported d.id = true) :
    ∃ s', s'.spilling = s.spilling ∧ s'.drained = s.drained ∧
      Merging types (rows.drop p.maxRows) s'.runs ∧
      mergeNext s = if rows = [] then .ok (none, s')
        else .ok (some ⟨types, (rows.take p.maxRows).map (·.2)⟩, s') := by
  obtain ⟨htake, hrest⟩ := Pending.takeMin run_reads h p.maxRows
  rw [← map_take] at htake
  rw [← map_drop] at hrest
  refine ⟨{ s with runs := (takeMin Run.head Run.pop (·.2.1) p.maxRows s.runs).2 },
    rfl, rfl, hrest, ?_⟩
  unfold mergeNext
  simp only [htake]
  by_cases hne : rows = []
  · subst hne
    rw [take_nil]
    rfl
  · have htake_ne : rows.take p.maxRows ≠ [] := by
      intro hnil
      rcases take_eq_nil_iff.mp hnil with hz | hz
      · exact absurd hz (Nat.ne_of_gt p.maxRows_pos)
      · exact hne hz
    have htypes : concatTypes (((rows.take p.maxRows).map fun t => (types, t)).map (·.1)) =
        .ok types := by
      apply concatTypes_same _ _ supported
      · intro t ht
        rw [map_map] at ht
        obtain ⟨_, _, rfl⟩ := mem_map.mp ht
        rfl
      · simpa using htake_ne
    rw [if_neg (by simpa using htake_ne), if_neg hne, htypes]
    simp only [map_map]
    rfl

theorem next_drained (hspill : s.spilling = true) (hdrained : s.drained = true) :
    s.next = mergeNext s := by
  unfold UniqueState.next
  rw [if_pos hspill]
  simp only [bind, Except.bind]
  rw [if_neg (by simp [hspill]), if_pos hdrained]

/-- What a merge of rows in columns of given types sends out. -/
theorem emits_merging (supported : ∀ d ∈ types, concatSupported d.id = true) (hspill : s.spilling = true) (hdrained : s.drained = true)
    {rows : List p.Tagged} (h : Merging types rows s.runs) :
    ∃ ms, Emits s ms ∧ (∀ m ∈ ms, m.types = types ∧ m.rows ≠ []) ∧
      ms.flatMap (·.rows) = rows.map (·.2) := by
  induction hlen : rows.length using Nat.strongRecOn generalizing s rows with
  | ind n ih =>
    obtain ⟨s', hs', hd', hm', hnext⟩ := mergeNext_ok h supported
    rw [← next_drained hspill hdrained] at hnext
    by_cases hne : rows = []
    · subst hne
      exact ⟨[], .done hnext, fun m hm => (not_mem_nil hm).elim, rfl⟩
    · rw [if_neg hne] at hnext
      have hpos := length_pos_iff.mpr hne
      have hlt : (rows.drop p.maxRows).length < n := by
        rw [length_drop, ← hlen]
        exact Nat.sub_lt hpos p.maxRows_pos
      obtain ⟨ms, hms, htypes, hrows⟩ :=
        ih _ hlt (hs'.trans hspill) (hd'.trans hdrained) hm' rfl
      refine ⟨_ :: ms, .more hnext hms, ?_, ?_⟩
      · rintro m (_ | ⟨_, hm⟩)
        · refine ⟨rfl, ?_⟩
          intro hnil
          have := congrArg List.length hnil
          simp only [length_map, List.length_take, length_nil] at this
          have := p.maxRows_pos
          omega
        · exact htypes m hm
      · rw [flatMap_cons, hrows, ← map_append, take_append_drop]

/-! ## Draining -/

theorem tagFrom_rows (n : Nat) (input : List (List p.Row)) :
    (tagFrom n input).flatMap (·.rows) = input.flatten.zipIdx.map fun (r, i) => (n + i, r) := by
  induction input generalizing n with
  | nil => rfl
  | cons rows rest ih =>
    rw [tagFrom, flatMap_cons, ih, flatten_cons, zipIdx_append, map_append]
    congr 1
    rw [zipIdx_eq_map_add (i := 0 + rows.length), map_map]
    apply map_congr_left
    intro x _
    simp only [Function.comp_apply, Nat.zero_add, Nat.add_assoc]

theorem tagFrom_types {input : List (List p.Row)} :
    ∀ m ∈ tagFrom n input, m.types = p.types := by
  induction input generalizing n with
  | nil => exact fun m hm => (not_mem_nil hm).elim
  | cons rows rest ih =>
    rintro m (_ | ⟨_, hm⟩)
    · rfl
    · exact ih m hm

/-- The rows still to come, with row ids from `n` on. -/
def tagged (n : Nat) (input : List (List p.Row)) : List p.Tagged :=
  (tagFrom n input).flatMap (·.rows)

theorem tagged_map (n : Nat) (input : List (List p.Row)) :
    (tagged n input).map (·.2) = input.flatten := by
  rw [tagged, tagFrom_rows, map_map]
  exact zipIdx_map_fst 0 input.flatten

theorem tagged_ascending (n : Nat) (input : List (List p.Row)) : Ascending (tagged n input) := by
  rw [Ascending, tagged, tagFrom_rows, pairwise_map]
  have h : (input.flatten.zipIdx.map Prod.snd).Pairwise (· < ·) := by
    rw [zipIdx_map_snd]
    exact pairwise_lt_range'
  rw [pairwise_map] at h
  exact h.imp fun hab => Nat.add_lt_add_left hab n

section Drain

variable {s : UniqueState p} {done : List p.Row}

/-- The rows whose keys are not held in memory. -/
def newRows (done : List p.Row) (rows : List p.Tagged) : List p.Tagged :=
  unknowns p.tagKey (done.map p.key) rows

section

variable (h : Fast s done)

include h

theorem fresh_zero (t : p.Tagged) :
    Fresh p s.seen 0 t ↔ p.tagKey t ∉ done.map p.key := by
  rw [← h.known (p.tagKey t)]
  exact not_congr (and_iff_right rfl)

theorem filter_fresh (rows : List p.Tagged) :
    (rows.filter fun t => Fresh p s.seen 0 t) = newRows done rows :=
  filter_congr fun t _ => decide_eq_decide.mpr (fresh_zero h t)

/-- Columns that can be put together: the first new row of each key is left to be merged. -/
theorem drainAndFinalize_ok {S : List SpilledType}
    (put : p.types.mapM putSeries = .ok S)
    (supported : ∀ d ∈ S.map getSeries, concatSupported d.id = true) :
    ∃ s', drainAndFinalize s = .ok s' ∧ s'.spilling = s.spilling ∧ s'.drained = true ∧
      Merging (S.map getSeries)
        (firsts p.tagKey (done.map p.key) (tagged s.nextRowId s.input)) s'.runs := by
  obtain ⟨ids, put'⟩ := put_again put
  obtain ⟨parts, hparts, hold⟩ := partitionAll_ok s.seen 0 (tagFrom s.nextRowId s.input)
    (fun m hm => by rw [tagFrom_types m hm]) (fun m hm _ => by rw [tagFrom_types m hm]; exact put)
    (holdAll_empty S uniqueSpillFanout)
  simp only [filter_fresh h] at hold
  set rows := newRows done (tagged s.nextRowId s.input) with hrows
  have hasc : Ascending rows := (tagged_ascending _ _).sublist unknowns_sublist
  have heach : List.Forall₂
      (fun part held => ∃ runs, finalizePartition s.seen uniqueSpillMaxDepth part = .ok runs ∧
        Survivors S held runs) parts
      ((List.range uniqueSpillFanout).map fun g => rows.filter fun t =>
        partOf p 0 uniqueSpillFanout t = g) := by
    apply List.Forall₂.flip
    apply forall₂_iff_get.mpr
    refine ⟨hold.length_eq, fun i h₁ h₂ => ?_⟩
    apply finalizePartition_ok ids put' supported (Nat.le_refl _)
      ((forall₂_iff_get.mp hold).2 i h₁ h₂)
    simp only [get_eq_getElem, getElem_map]
    exact hasc.sublist filter_sublist
  obtain ⟨runs, hruns, hsurv⟩ := mapM_forall₂ heach
  have hall : Survivors S rows runs.flatten := by
    apply Survivors.flatten hsurv
    rw [flatMap_map]
    exact firsts_parts (by decide)
  refine ⟨{ s with
    input := []
    drained := true
    runs := runs.flatten.map fun run => ⟨some (readMorsel run), 0⟩ }, ?_, rfl, rfl, ?_⟩
  · simp only [drainAndFinalize, bind, Except.bind, hparts, hruns]
    rfl
  · have hfirst : firsts p.tagKey (done.map p.key) (tagged s.nextRowId s.input) =
        firsts p.tagKey [] rows := by
      rw [hrows, newRows, firsts_unknowns]
    rw [hfirst]
    have hleft : (runs.flatten.map fun run => (⟨some (readMorsel run), 0⟩ : Run p)).flatMap
        Run.left = (runs.flatten.flatMap (·.rows)).map fun t => (S.map getSeries, t) := by
      rw [flatMap_map, map_flatMap]
      apply flatMap_congr
      intro run hr
      simp only [Run.left, readMorsel, hall.types run hr, drop_zero]
    refine ⟨?_, ?_, ?_⟩
    · rw [pairwise_map]
      exact hasc.sublist firsts_sublist
    · rw [hleft]
      exact hall.rows.map _
    · intro r hr
      obtain ⟨run, hrun, rfl⟩ := mem_map.mp hr
      simp only [Run.left, pairwise_map]
      exact hall.ascending run hrun

/-- Without a new row nothing is left to be merged. -/
theorem drainAndFinalize_nil
    (hnil : newRows done (tagged s.nextRowId s.input) = []) :
    ∃ s', drainAndFinalize s = .ok s' ∧ s'.spilling = s.spilling ∧ s'.drained = true ∧
      s'.runs = [] := by
  have hno : ∀ m ∈ tagFrom s.nextRowId s.input, ∀ t ∈ m.rows, ¬ Fresh p s.seen 0 t := by
    intro m hm t ht hf
    have hmem : t ∈ newRows done (tagged s.nextRowId s.input) :=
      mem_unknowns.mpr ⟨mem_flatMap.mpr ⟨m, hm, ht⟩, (fresh_zero h t).mp hf⟩
    rw [hnil] at hmem
    cases hmem
  obtain ⟨parts, hparts, hold⟩ := partitionAll_ok (S := []) s.seen 0 (tagFrom s.nextRowId s.input)
    (fun m hm => by rw [tagFrom_types m hm])
    (fun m hm hf => absurd hf (by
      rintro ⟨t, ht, hf⟩
      exact hno m hm t ht hf))
    (holdAll_empty [] uniqueSpillFanout)
  change HoldAll [] parts _ fun g => [] ++ ((tagged s.nextRowId s.input).filter _).filter _ at hold
  simp only [filter_fresh h, hnil] at hold
  have hruns : parts.mapM (finalizePartition s.seen uniqueSpillMaxDepth) =
      .ok (parts.map fun _ => []) := by
    apply mapM_ok
    intro part hpart
    obtain ⟨i, hi, rfl⟩ := getElem_of_mem hpart
    have := (forall₂_iff_get.mp hold).2 i (hold.length_eq ▸ hi) hi
    simp only [get_eq_getElem, getElem_map] at this
    exact finalizePartition_nil s.seen this _
  refine ⟨{ s with input := [], drained := true, runs := [] }, ?_, rfl, rfl, rfl⟩
  simp only [drainAndFinalize, bind, Except.bind, hparts, hruns]
  simp
  rfl

/-- A new row in columns that cannot be put together makes the draining fail. -/
theorem drainAndFinalize_error {d : DataType} (hd : d ∈ p.types)
    (hun : concatSupported d.id = false)
    (hne : newRows done (tagged s.nextRowId s.input) ≠ []) :
    ∃ e, drainAndFinalize s = .error e := by
  cases put : p.types.mapM putSeries with
  | error e =>
    have hfresh : ∃ m ∈ tagFrom s.nextRowId s.input, ∃ t ∈ m.rows, Fresh p s.seen 0 t := by
      obtain ⟨t, ht⟩ := exists_mem_of_ne_nil _ hne
      obtain ⟨hmem, hnew⟩ := mem_unknowns.mp ht
      obtain ⟨m, hm, ht'⟩ := mem_flatMap.mp hmem
      exact ⟨m, hm, t, ht', (fresh_zero h t).mpr hnew⟩
    obtain ⟨e', he⟩ := partitionAll_error (S := [])
      (fun m hm => by rw [tagFrom_types m hm]) (fun m hm => by rw [tagFrom_types m hm]; exact put)
      hfresh (holdAll_empty [] uniqueSpillFanout) (by decide)
    refine ⟨e', ?_⟩
    simp only [drainAndFinalize, bind, Except.bind, he]
  | ok S =>
    obtain ⟨ids, put'⟩ := put_again put
    obtain ⟨parts, hparts, hold⟩ := partitionAll_ok s.seen 0 (tagFrom s.nextRowId s.input)
      (fun m hm => by rw [tagFrom_types m hm])
      (fun m hm _ => by rw [tagFrom_types m hm]; exact put)
      (holdAll_empty S uniqueSpillFanout)
    simp only [filter_fresh h] at hold
    obtain ⟨t, ht⟩ := exists_mem_of_ne_nil _ hne
    have hlt : partOf p 0 uniqueSpillFanout t < parts.length := by
      rw [hold.length]
      exact Nat.mod_lt _ (by decide)
    have hpart := (forall₂_iff_get.mp hold).2 _ (hold.length_eq ▸ hlt) hlt
    simp only [get_eq_getElem, getElem_map, getElem_range] at hpart
    have hd' : d.id ∈ (S.map getSeries).map (·.id) := by
      rw [ids]
      exact mem_map_of_mem hd
    obtain ⟨d', hd', hid⟩ := mem_map.mp hd'
    obtain ⟨e, he⟩ := finalizePartition_error s.seen ids put' hd' (hid ▸ hun)
      (Nat.le_refl _) hpart
      (ne_nil_of_mem (mem_filter.mpr ⟨ht, decide_eq_true rfl⟩))
    obtain ⟨e', he'⟩ := mapM_error (getElem_mem hlt) he
    refine ⟨e', ?_⟩
    simp only [drainAndFinalize, bind, Except.bind, hparts, he']

end

end Drain

/-! ## After the budget is exceeded -/

/-- Columns that can be put together can be written. They come back as they went in exactly
when every type survives. -/
theorem put_supported {ds : List DataType} (h : ∀ d ∈ ds, concatSupported d.id = true) :
    ∃ S, ds.mapM putSeries = .ok S ∧ (S.map getSeries = ds ↔ ∀ d ∈ ds, Survives d) := by
  induction ds with
  | nil => exact ⟨[], rfl, by simp⟩
  | cons d ds ih =>
    obtain ⟨S, hS, hiff⟩ := ih fun d' hd => h d' (mem_cons_of_mem d hd)
    have hd := h d mem_cons_self
    cases hput : putSeries d with
    | error e =>
      have hn := concatSupported_not_nested hd
      unfold putSeries at hput
      rw [if_neg hn] at hput
      split at hput
      · cases hput
      · split at hput <;> cases hput
    | ok t =>
      refine ⟨t :: S, ?_, ?_⟩
      · rw [mapM_cons, hput, hS]
        rfl
      · rw [map_cons, List.cons.injEq, hiff, forall_mem_cons, Survives, hput, hd]
        simp [Except.map]

section Spilled

variable {s : UniqueState p} {done : List p.Row} {ms : List (Morsel p.Row)}

/-- Once drained, the stream is that of the drained state. -/
theorem next_undrained (h : Fast s done) (hspill : s.spilling = true) :
    s.next = (drainAndFinalize s).bind mergeNext := by
  unfold UniqueState.next
  rw [if_pos hspill]
  simp only [bind, Except.bind]
  rw [if_neg (by simp [hspill]), if_neg (by simp [h.drained])]

theorem Emits.undrained (h : Fast s done) (hspill : s.spilling = true) {s' : UniqueState p}
    (hdrain : drainAndFinalize s = .ok s') (hs' : s'.spilling = s.spilling)
    (hd' : s'.drained = true) : Emits s ms ↔ Emits s' ms := by
  apply Emits.congr
  rw [next_undrained h hspill, hdrain, next_drained (hs'.trans hspill) hd']
  rfl

theorem firsts_tagged (known : List Bytes) (n : Nat) (input : List (List p.Row)) :
    (firsts p.tagKey known (tagged n input)).map (·.2) = firsts p.key known input.flatten := by
  rw [← tagged_map n input, firsts_map]
  rfl

/-- No new row, or columns that survive: the rows of new keys follow. -/
theorem emits_spilled (h : Fast s done) (hspill : s.spilling = true)
    (good : (∀ r ∈ s.input.flatten, p.key r ∈ done.map p.key) ∨ ∀ d ∈ p.types, Survives d) :
    ∃ ms, Emits s ms ∧ (∀ m ∈ ms, m.types = p.types ∧ m.rows ≠ []) ∧
      ms.flatMap (·.rows) = firsts p.key (done.map p.key) s.input.flatten := by
  rcases good with known | survive
  · have hnil : newRows done (tagged s.nextRowId s.input) = [] := by
      apply eq_nil_iff_forall_not_mem.mpr
      intro t ht
      obtain ⟨hmem, hn⟩ := mem_unknowns.mp ht
      apply hn
      apply known
      rw [← tagged_map s.nextRowId s.input]
      exact mem_map_of_mem hmem
    obtain ⟨s', hdrain, hs', hd', hruns⟩ := drainAndFinalize_nil h hnil
    refine ⟨[], (Emits.undrained h hspill hdrain hs' hd').mpr ?_,
      fun m hm => (not_mem_nil hm).elim, (firsts_eq_nil.mpr known).symm⟩
    have htake : takeMin Run.head Run.pop (·.2.1) p.maxRows ([] : List (Run p)) = ([], []) := by
      cases p.maxRows <;> rfl
    have hnext : s'.next = .ok (none, { s' with runs := [] }) := by
      rw [next_drained (hs'.trans hspill) hd', mergeNext, hruns, htake]
      rfl
    exact .done hnext
  · have supported : ∀ d ∈ p.types, concatSupported d.id = true := fun d hd => (survive d hd).2
    obtain ⟨S, put, hiff⟩ := put_supported supported
    have hS := hiff.mpr survive
    obtain ⟨s', hdrain, hs', hd', hmerge⟩ :=
      drainAndFinalize_ok h put (by rw [hS]; exact supported)
    rw [hS] at hmerge
    obtain ⟨ms, hms, htypes, hrows⟩ := emits_merging supported (hs'.trans hspill) hd' hmerge
    refine ⟨ms, (Emits.undrained h hspill hdrain hs' hd').mpr hms, htypes, ?_⟩
    rw [hrows, firsts_tagged]

/-- A new row and a column that does not survive: the stream fails or changes a type. -/
theorem not_emits_spilled (h : Fast s done) (hspill : s.spilling = true)
    {r : p.Row} (hr : r ∈ s.input.flatten) (hnew : p.key r ∉ done.map p.key)
    (lost : ¬ ∀ d ∈ p.types, Survives d) (hms : Emits s ms) :
    ∃ m ∈ ms, m.types ≠ p.types := by
  have hfirst : firsts p.key (done.map p.key) s.input.flatten ≠ [] :=
    fun hnil => hnew (firsts_eq_nil.mp hnil r hr)
  by_cases supported : ∀ d ∈ p.types, concatSupported d.id = true
  · obtain ⟨S, put, hiff⟩ := put_supported supported
    have hS : S.map getSeries ≠ p.types := fun hS => lost (hiff.mp hS)
    have supported' : ∀ d ∈ S.map getSeries, concatSupported d.id = true := by
      intro d hd
      have hid : d.id ∈ (S.map getSeries).map (·.id) := mem_map_of_mem hd
      rw [(put_again put).1] at hid
      obtain ⟨d', hd', he⟩ := mem_map.mp hid
      rw [← he]
      exact supported d' hd'
    obtain ⟨s', hdrain, hs', hd', hmerge⟩ := drainAndFinalize_ok h put supported'
    obtain ⟨s'', _, _, _, hnext⟩ := mergeNext_ok hmerge supported'
    have hne : firsts p.tagKey (done.map p.key) (tagged s.nextRowId s.input) ≠ [] := by
      intro hnil
      apply hfirst
      rw [← firsts_tagged _ s.nextRowId, hnil]
      rfl
    rw [if_neg hne, ← next_drained (hs'.trans hspill) hd'] at hnext
    rw [Emits.undrained h hspill hdrain hs' hd', Emits.of_more hnext] at hms
    obtain ⟨ms', rfl, _⟩ := hms
    exact ⟨_, mem_cons_self, hS⟩
  · push Not at supported
    obtain ⟨d, hd, hun⟩ := supported
    have hne : newRows done (tagged s.nextRowId s.input) ≠ [] := by
      rw [← tagged_map s.nextRowId s.input] at hr
      obtain ⟨t, ht, rfl⟩ := mem_map.mp hr
      exact ne_nil_of_mem (mem_unknowns.mpr ⟨ht, hnew⟩)
    obtain ⟨e, he⟩ := drainAndFinalize_error h hd (by simpa using hun) hne
    have hnext : s.next = .error e := by
      rw [next_undrained h hspill, he]
      rfl
    exact absurd hms (Emits.of_error hnext ms)

end Spilled

/-- After the rows in memory either no new key comes, or every column survives. -/
def Unharmed (p : UniquePlan) (done : List p.Row) (input : List (List p.Row)) : Prop :=
  (∀ r ∈ (heldPart p done input).2, p.key r ∈ (heldPart p done input).1.map p.key) ∨
    ∀ d ∈ p.types, Survives d

theorem sentFrom_rows (rows : List p.Row) : (sentFrom p rows).flatMap (·.rows) = rows := by
  unfold sentFrom
  split
  · rename_i h
    rw [h]
    rfl
  · rw [flatMap_singleton]

theorem sentFrom_types :
    ∀ m ∈ sentFrom p rows, m.types = p.types ∧ m.rows ≠ [] := by
  intro m hm
  unfold sentFrom at hm
  split at hm
  · cases hm
  · rename_i h
    rw [mem_singleton.mp hm]
    exact ⟨rfl, h⟩

/-- From any state in memory, the rows of new keys follow when nothing is harmed. -/
theorem emits_fast (h : Fast s done)
    (hspill : s.spilling = false) (good : Unharmed p done s.input) :
    ∃ ms, Emits s ms ∧ (∀ m ∈ ms, m.types = p.types ∧ m.rows ≠ []) ∧
      ms.flatMap (·.rows) = firsts p.key (done.map p.key) s.input.flatten := by
  induction hin : s.input generalizing s done with
  | nil =>
    have hnext : s.next = .ok (none, { s with input := [] }) := by
      unfold UniqueState.next
      rw [hin]
      simp [fastPhase, bind, Except.bind, hspill, pure, Except.pure]
    exact ⟨[], .done hnext, fun m hm => (not_mem_nil hm).elim, rfl⟩
  | cons rows rest ih =>
    obtain ⟨s', hfast, hrest, hiff⟩ := Emits.fast_cons h hspill hin
    have htail : ∃ ms, Emits s' ms ∧ (∀ m ∈ ms, m.types = p.types ∧ m.rows ≠ []) ∧
        ms.flatMap (·.rows) = firsts p.key ((done ++ rows).map p.key) rest.flatten := by
      rw [hin, Unharmed, heldPart] at good
      by_cases hover : OverBudget p (done ++ rows)
      · rw [if_pos hover] at good
        rw [← hrest]
        apply emits_spilled hfast (hfast.spilling.trans (decide_eq_true hover))
        rw [hrest]
        exact good
      · rw [if_neg hover] at good
        exact ih hfast (hfast.spilling.trans (decide_eq_false hover)) (by rw [hrest]; exact good)
          hrest
    obtain ⟨ms, hms, htypes, hrows⟩ := htail
    refine ⟨_, (hiff _).mpr ⟨ms, rfl, hms⟩, ?_, ?_⟩
    · intro m hm
      rcases mem_append.mp hm with hm | hm
      · exact sentFrom_types m hm
      · exact htypes m hm
    · rw [flatMap_append, sentFrom_rows, hrows, flatten_cons, firsts_append, map_append]

/-- From any state in memory, harm shows in the types or as a failure. -/
theorem not_emits_fast (h : Fast s done)
    (hspill : s.spilling = false) (bad : ¬ Unharmed p done s.input) (hms : Emits s ms) : ∃ m ∈ ms, m.types ≠ p.types := by
  induction hin : s.input generalizing s done ms with
  | nil =>
    rw [hin] at bad
    exact absurd (Or.inl fun r hr => (not_mem_nil hr).elim) bad
  | cons rows rest ih =>
    obtain ⟨s', hfast, hrest, hiff⟩ := Emits.fast_cons h hspill hin
    obtain ⟨ms', rfl, hms'⟩ := (hiff ms).mp hms
    have htail : ∃ m ∈ ms', m.types ≠ p.types := by
      rw [hin, Unharmed, heldPart] at bad
      by_cases hover : OverBudget p (done ++ rows)
      · rw [if_pos hover] at bad
        push Not at bad
        obtain ⟨⟨r, hr, hnew⟩, d, hd, hlost⟩ := bad
        exact not_emits_spilled hfast (hfast.spilling.trans (decide_eq_true hover))
          (by rw [hrest]; exact hr) hnew (fun hall => hlost (hall d hd)) hms'
      · rw [if_neg hover] at bad
        exact ih hfast (hfast.spilling.trans (decide_eq_false hover)) (by rw [hrest]; exact bad)
          hms' hrest
    obtain ⟨m, hm, hne⟩ := htail
    exact ⟨m, mem_append_right _ hm, hne⟩

/-- The streaming distinct sends out the first row of every distinct key in the order of the
input, in the columns of the input. -/
def StreamsDistinct (p : UniquePlan) (input : List (List p.Row)) : Prop :=
  ∃ ms, uniqueStream p input = .ok (some ms) ∧ (∀ m ∈ ms, m.types = p.types) ∧
    ms.flatMap (·.rows) = firsts p.keyCells [] input.flatten

/-- The first rows by the encoded keys are the first rows by their cells exactly when no two
keys are confused. -/
theorem firsts_key_iff :
    firsts p.key [] rows = firsts p.keyCells [] rows ↔ KeysExact p rows :=
  firsts_coarser (g := p.encodeKey)

/-- Morsels that have rows are no more than their rows. -/
theorem length_le_rows (h : ∀ m ∈ ms, m.rows ≠ []) :
    ms.length ≤ (ms.flatMap (·.rows)).length := by
  induction ms with
  | nil => exact Nat.le_refl _
  | cons m ms ih =>
    rw [length_cons, flatMap_cons, length_append, Nat.add_comm]
    exact Nat.add_le_add (length_pos_iff.mpr (h m mem_cons_self))
      (ih fun m' hm => h m' (mem_cons_of_mem m hm))

theorem start_spilling (input : List (List p.Row)) :
    (UniqueState.start p input).spilling = false :=
  rfl

/-- Instants in milliseconds. -/
def millis : DataType where
  id := .Timestamp
  timeUnit := .Milli
  timezone := ""
  decimalPrecision := 0
  decimalScale := 0
  fixedSize := 0
  known h := TypeId.noConfusion h
  unit_default h := absurd (Or.inl rfl) h
  zone_default _ := rfl
  decimal_default _ := ⟨rfl, rfl⟩
  size_default _ := rfl

/-- An instant below 256 as a row. -/
def instant (n : UInt8) : Row [millis] where
  cells := [some [n, 0, 0, 0, 0, 0, 0, 0]]
  fits := .cons ⟨fun h => TypeId.noConfusion h, fun _ _ hw => Option.some.inj hw⟩ .nil

/-- A distinct of instants in little memory. -/
def instants : UniquePlan where
  types := [millis]
  keyIdx := []
  keyIdx_lt _ hk := (List.not_mem_nil hk).elim
  keyed _ hd := List.mem_singleton.mp hd ▸ rfl
  budget := 1
  hash _ := 0
  parallel := false
  maxRows := 8
  maxRows_pos := Nat.succ_pos 7

end DFTracer.Frames
