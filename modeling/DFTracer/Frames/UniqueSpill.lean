/-
# Run files of the streaming distinct

Partitioning spreads the new rows over the run files by the hash of their keys, so that all
rows of a key are in one file and in the order of the input. Deduplicating a file, however
often it is partitioned again, gives runs that hold the first row of each of its keys,
provided that the columns can be written and put together.
-/

import DFTracer.Frames.UniqueKeys

namespace DFTracer.Frames

open DFTracer.Math List

variable {p : UniquePlan} {S : List SpilledType} {types : List DataType} {m : Morsel p.Tagged}
  {e : InvalidArgument} {held : List p.Tagged}

/-- Columns written to a run file are read with their ids, and written again as they are. -/
theorem put_again {ds : List DataType} (h : ds.mapM putSeries = .ok S) :
    (S.map getSeries).map (·.id) = ds.map (·.id) ∧ (S.map getSeries).mapM putSeries = .ok S := by
  induction ds generalizing S with
  | nil =>
    cases h
    exact ⟨rfl, rfl⟩
  | cons d ds ih =>
    rw [mapM_cons] at h
    cases hd : putSeries d with
    | error e =>
      rw [hd] at h
      cases h
    | ok s =>
      cases hds : ds.mapM putSeries with
      | error e =>
        rw [hd, hds] at h
        cases h
      | ok S' =>
        rw [hd, hds] at h
        cases h
        obtain ⟨hid, hput⟩ := putSeries_getSeries hd
        obtain ⟨hids, hputs⟩ := ih hds
        constructor
        · rw [map_cons, map_cons, map_cons, hid, hids]
        · rw [map_cons, mapM_cons, hput, hputs]
          rfl

/-- Parts of a frame with the same types are put together. -/
theorem concatTypes_same {parts : List (List DataType)}
    (same : ∀ t ∈ parts, t = types) (hne : parts ≠ [])
    (supported : ∀ d ∈ types, concatSupported d.id = true) : concatTypes parts = .ok types := by
  obtain ⟨front, rest, rfl⟩ := exists_cons_of_ne_nil hne
  have hfront : front = types := same front mem_cons_self
  subst hfront
  rw [concatTypes]
  have hcol : ∀ x ∈ front.zipIdx, (fun x : DataType × Nat =>
      concatColumns x.1 (rest.filterMap fun types => types[x.2]?)) x = .ok x.1 := by
    rintro ⟨d, c⟩ hx
    have hd := mk_mem_zipIdx_iff_getElem?.mp hx
    apply concatColumns_same
    · intro e he
      obtain ⟨t, ht, he⟩ := mem_filterMap.mp he
      rw [same t (mem_cons_of_mem _ ht), hd] at he
      exact (Option.some.inj he).symm
    · exact supported d (mem_of_getElem? hd)
  rw [mapM_ok hcol, zipIdx_map_fst]

theorem concatTypes_unsupported (parts : List (List DataType))
    {d : DataType} (hd : d ∈ types) (hun : concatSupported d.id = false) :
    ∃ e, concatTypes (types :: parts) = .error e := by
  obtain ⟨c, hc, rfl⟩ := getElem_of_mem hd
  obtain ⟨e, he⟩ := concatColumns_unsupported (parts.filterMap fun t => t[c]?) hun
  have hx : (types[c], c) ∈ types.zipIdx :=
    mk_mem_zipIdx_iff_getElem?.mpr (getElem?_eq_getElem hc)
  exact mapM_error (f := fun x : DataType × Nat =>
    concatColumns x.1 (parts.filterMap fun types => types[x.2]?)) hx he

/-! ## Partitioning -/

/-- The rows are in the order of the input. -/
def Ascending (rows : List p.Tagged) : Prop := rows.Pairwise fun a b => a.1 < b.1

/-- The key of a row with its id. -/
def UniquePlan.tagKey (p : UniquePlan) (t : p.Tagged) : Bytes := p.key t.2

/-- The run file of a row among `n`. -/
def partOf (p : UniquePlan) (depth n : Nat) (t : p.Tagged) : Nat :=
  (uniqueSpillHash p.hash (p.tagKey t) depth).toNat % n

/-- The row is not left out as one of a key already resolved. -/
def Fresh (p : UniquePlan) (seen : Seen) (depth : Nat) (t : p.Tagged) : Prop :=
  ¬ (depth = 0 ∧ alreadySeen p.hash seen (p.tagKey t) = true)

instance (seen : Seen) (depth : Nat) : DecidablePred (Fresh p seen depth) :=
  fun _ => inferInstanceAs (Decidable (¬ _))

/-- The run file holds these rows, its columns written with these types. -/
structure Holds (S : List SpilledType) (held : List p.Tagged) (part : Partition p) : Prop where
  types : ∀ m ∈ part.file, m.types = S
  rows : part.file.flatMap (·.rows) = held
  count : part.rows = held.length

/-- The run files hold these rows, file by file. -/
def HoldAll (S : List SpilledType) (parts : List (Partition p)) (n : Nat)
    (rows : Nat → List p.Tagged) : Prop :=
  List.Forall₂ (Holds S) ((List.range n).map rows) parts

theorem holdAll_empty (S : List SpilledType) (n : Nat) :
    HoldAll S (List.replicate n (Partition.empty p)) n fun _ => [] := by
  apply forall₂_iff_get.mpr
  refine ⟨by simp, fun i h₁ h₂ => ?_⟩
  simp only [get_eq_getElem, getElem_replicate, getElem_map]
  exact ⟨fun m hm => (not_mem_nil hm).elim, rfl, rfl⟩

theorem HoldAll.length {parts : List (Partition p)} {n : Nat}
    {rows : Nat → List p.Tagged} (h : HoldAll S parts n rows) : parts.length = n := by
  rw [← List.Forall₂.length_eq h, length_map, length_range]

variable {S : List SpilledType} {seen : Seen} {parts : List (Partition p)} {n : Nat}
  {rows : Nat → List p.Tagged}

variable {depth : Nat}

/-- The rows of a morsel are added to their run files. The columns need to be written only
where a row is. -/
theorem partitionRows_ok (ids : m.types.map (·.id) = p.types.map (·.id))
    (put : (∃ t ∈ m.rows, Fresh p seen depth t) → m.types.mapM putSeries = .ok S)
    (h : HoldAll S parts n rows) :
    ∃ parts', partitionRows seen m depth parts = .ok parts' ∧
      HoldAll S parts' n fun g => rows g ++
        (m.rows.filter fun t => Fresh p seen depth t).filter fun t => partOf p depth n t = g := by
  have hlen := h.length
  unfold partitionRows
  rw [rowKeys_ok ids, map_map]
  have hzip : (List.map (p.key ∘ Prod.snd) m.rows).zip m.rows =
      m.rows.map fun t => (p.tagKey t, t) :=
    map_prod_right_eq_zip.symm
  simp only [bind, Except.bind, hzip]
  apply mapM_forall₂
  apply forall₂_iff_get.mpr
  refine ⟨by simp [hlen], fun i h₁ h₂ => ?_⟩
  simp only [get_eq_getElem, getElem_zipIdx, getElem_map, getElem_range, Nat.zero_add]
  have hi : i < parts.length := by simpa using h₁
  have hpart : Holds S (rows i) parts[i] := by
    have := (forall₂_iff_get.mp h).2 i (by simpa [← hlen] using hi) hi
    simpa using this
  set sel := (m.rows.filter fun t => Fresh p seen depth t).filter
    fun t => partOf p depth n t = i with hsel
  have hrows : List.map (fun x : Bytes × p.Tagged => x.2)
      (((m.rows.map fun t => (p.tagKey t, t)).filter fun kr =>
        ¬ (depth = 0 ∧ alreadySeen p.hash seen kr.1)).filter fun kr =>
          (uniqueSpillHash p.hash kr.1 depth).toNat % parts.length = i) = sel := by
    rw [filter_map, filter_map, map_map, hlen]
    exact map_id _
  rw [hrows]
  by_cases hnil : sel = []
  · rw [if_pos hnil]
    refine ⟨_, rfl, ?_⟩
    rw [hnil, append_nil]
    exact hpart
  · rw [if_neg hnil]
    obtain ⟨t, ht⟩ := exists_mem_of_ne_nil _ hnil
    have ht' := mem_filter.mp (mem_filter.mp ht).1
    have hput := put ⟨t, ht'.1, of_decide_eq_true ht'.2⟩
    have hwrite : writeMorsel (p := p) ⟨m.types, sel⟩ = .ok ⟨S, sel⟩ := by
      rw [writeMorsel, hput]
      rfl
    rw [hwrite]
    refine ⟨_, rfl, ?_, ?_, ?_⟩
    · intro m' hm'
      rcases mem_append.mp hm' with hm' | hm'
      · exact hpart.types m' hm'
      · rw [mem_singleton.mp hm']
    · rw [flatMap_append, hpart.rows, flatMap_singleton]
    · rw [hpart.count, length_append]

/-- A new row of columns that cannot be written makes the partitioning fail. -/
theorem partitionRows_error (ids : m.types.map (·.id) = p.types.map (·.id))
    (put : m.types.mapM putSeries = .error e) {t : p.Tagged} (ht : t ∈ m.rows)
    (fresh : Fresh p seen depth t) (hparts : parts ≠ []) :
    ∃ e, partitionRows seen m depth parts = .error e := by
  have hlt : partOf p depth parts.length t < parts.length :=
    Nat.mod_lt _ (length_pos_iff.mpr hparts)
  unfold partitionRows
  rw [rowKeys_ok ids]
  simp only
  have hx : (parts[partOf p depth parts.length t], partOf p depth parts.length t) ∈ parts.zipIdx :=
    mk_mem_zipIdx_iff_getElem?.mpr (getElem?_eq_getElem hlt)
  have hmem : (p.tagKey t, t) ∈ ((m.rows.map (·.2)).map p.key).zip m.rows := by
    rw [map_map, ← map_prod_right_eq_zip]
    exact mem_map_of_mem ht
  apply mapM_error hx (e := e)
  rw [if_neg]
  · rw [writeMorsel, put]
    rfl
  · apply ne_nil_of_mem (a := t)
    refine mem_map.mpr ⟨(p.tagKey t, t), ?_, rfl⟩
    rw [mem_filter, mem_filter]
    exact ⟨⟨hmem, decide_eq_true fresh⟩, decide_eq_true rfl⟩

/-- Every morsel is added to the run files. -/
theorem partitionAll_ok (seen : Seen) (depth : Nat) (ms : List (Morsel p.Tagged))
    (ids : ∀ m ∈ ms, m.types.map (·.id) = p.types.map (·.id))
    (put : ∀ m ∈ ms, (∃ t ∈ m.rows, Fresh p seen depth t) → m.types.mapM putSeries = .ok S)
    (h : HoldAll S parts n rows) :
    ∃ parts', partitionAll seen depth ms parts = .ok parts' ∧
      HoldAll S parts' n fun g => rows g ++
        ((ms.flatMap (·.rows)).filter fun t => Fresh p seen depth t).filter
          fun t => partOf p depth n t = g := by
  induction ms generalizing parts rows with
  | nil =>
    refine ⟨parts, rfl, ?_⟩
    simp only [flatMap_nil, filter_nil, append_nil]
    exact h
  | cons m ms ih =>
    obtain ⟨parts₁, h₁, hold₁⟩ :=
      partitionRows_ok (ids m mem_cons_self) (put m mem_cons_self) h
    obtain ⟨parts₂, h₂, hold₂⟩ := ih (fun m' hm => ids m' (mem_cons_of_mem m hm))
      (fun m' hm => put m' (mem_cons_of_mem m hm)) hold₁
    refine ⟨parts₂, ?_, ?_⟩
    · rw [partitionAll, h₁]
      exact h₂
    · simp only [flatMap_cons, filter_append, append_assoc] at hold₂ ⊢
      exact hold₂

theorem partitionAll_error {ms : List (Morsel p.Tagged)}
    (ids : ∀ m ∈ ms, m.types.map (·.id) = p.types.map (·.id))
    (put : ∀ m ∈ ms, m.types.mapM putSeries = .error e)
    (fresh : ∃ m ∈ ms, ∃ t ∈ m.rows, Fresh p seen depth t)
    (h : HoldAll S parts n rows) (hn : 0 < n) :
    ∃ e, partitionAll seen depth ms parts = .error e := by
  induction ms generalizing parts rows with
  | nil =>
    obtain ⟨m, hm, _⟩ := fresh
    cases hm
  | cons m ms ih =>
    have hne : parts ≠ [] := by
      apply length_pos_iff.mp
      rw [h.length]
      exact hn
    by_cases hm : ∃ t ∈ m.rows, Fresh p seen depth t
    · obtain ⟨t, ht, hf⟩ := hm
      obtain ⟨e', he⟩ := partitionRows_error (ids m mem_cons_self)
        (put m mem_cons_self) ht hf hne
      refine ⟨e', ?_⟩
      rw [partitionAll, he]
      rfl
    · obtain ⟨parts₁, h₁, hold₁⟩ := partitionRows_ok (S := S) (ids m mem_cons_self)
        (fun hm' => absurd hm' hm) h
      have fresh' : ∃ m' ∈ ms, ∃ t ∈ m'.rows, Fresh p seen depth t := by
        obtain ⟨m', hm', ht⟩ := fresh
        rcases mem_cons.mp hm' with rfl | hm'
        · exact absurd ht hm
        · exact ⟨m', hm', ht⟩
      obtain ⟨e', he⟩ := ih (fun m' hm => ids m' (mem_cons_of_mem m hm))
        (fun m' hm => put m' (mem_cons_of_mem m hm)) fresh' hold₁
      refine ⟨e', ?_⟩
      rw [partitionAll, h₁]
      exact he

/-! ## Leaves -/

/-- What the runs of a run file must hold: the first row of every key, each run in order. -/
structure Survivors (S : List SpilledType) (held : List p.Tagged) (runs : List (SpilledMorsel p)) :
    Prop where
  rows : (runs.flatMap (·.rows)).Perm (firsts p.tagKey [] held)
  types : ∀ run ∈ runs, run.types = S
  ascending : ∀ run ∈ runs, Ascending run.rows

/-- Rows in order are kept where their key is new. -/
theorem foldl_keepBest {best l : List (Bytes × p.Tagged)}
    (ascending : (best ++ l).Pairwise fun a b => a.2.1 < b.2.1) :
    l.foldl keepBest best = best ++ firsts Prod.fst (best.map Prod.fst) l := by
  induction l generalizing best with
  | nil => rw [foldl_nil, firsts, append_nil]
  | cons kr l ih =>
    rw [foldl_cons]
    have hbefore : ∀ b ∈ best, b.2.1 < kr.2.1 := by
      intro b hb
      exact (pairwise_append.mp ascending).2.2 b hb kr mem_cons_self
    have hdrop : (best ++ l).Pairwise fun a b => a.2.1 < b.2.1 :=
      ascending.sublist ((sublist_cons_self kr l).append_left best)
    by_cases hk : kr.1 ∈ best.map Prod.fst
    · have hany : best.any (·.1 = kr.1) = true := by
        obtain ⟨b, hb, he⟩ := mem_map.mp hk
        exact any_eq_true.mpr ⟨b, hb, decide_eq_true he⟩
      have hmap : (best.map fun b => if b.1 = kr.1 ∧ kr.2.1 < b.2.1 then kr else b) = best := by
        rw [map_congr_left (g := id), map_id]
        intro b hb
        exact if_neg fun h => Nat.lt_asymm h.2 (hbefore b hb)
      rw [keepBest, if_pos hany, hmap, ih hdrop, firsts_cons_known hk]
    · have hany : ¬ best.any (·.1 = kr.1) = true := by
        intro h
        obtain ⟨b, hb, he⟩ := any_eq_true.mp h
        exact hk (mem_map.mpr ⟨b, hb, of_decide_eq_true he⟩)
      rw [keepBest, if_neg hany, ih (by rwa [append_assoc]), firsts_cons_new hk,
        append_assoc, singleton_append]
      congr 2
      apply firsts_congr
      intro k
      simp only [map_append, mem_append, map_cons, map_nil,
        mem_cons, not_mem_nil, or_false]
      exact or_comm

section Leaf

variable {part : Partition p} {held : List p.Tagged}

theorem Holds.read_rows (h : Holds S held part) :
    (part.file.map readMorsel).flatMap (·.rows) = held := by
  rw [flatMap_map]
  exact h.rows

theorem Holds.read_types (h : Holds S held part) :
    ∀ t ∈ (part.file.map readMorsel).map (·.types), t = S.map getSeries := by
  intro t ht
  obtain ⟨m, hm, rfl⟩ := mem_map.mp ht
  obtain ⟨s, hs, rfl⟩ := mem_map.mp hm
  rw [readMorsel, h.types s hs]

theorem Holds.read_ne_nil (h : Holds S held part) (hne : held ≠ []) :
    (part.file.map readMorsel).map (·.types) ≠ [] := by
  intro hnil
  apply hne
  rw [← h.read_rows, map_eq_nil_iff.mp hnil]
  rfl

theorem leafRun_nil (h : Holds S [] part) : leafRun part.file = .ok [] := by
  unfold leafRun
  simp only [h.read_rows]
  rfl

/-- Columns that can be put together: a file of rows gives one run. -/
theorem leafRun_ok (ids : (S.map getSeries).map (·.id) = p.types.map (·.id))
    (put : (S.map getSeries).mapM putSeries = .ok S)
    (supported : ∀ d ∈ S.map getSeries, concatSupported d.id = true)
    (h : Holds S held part) (ascending : Ascending held) :
    ∃ runs, leafRun part.file = .ok runs ∧ Survivors S held runs := by
  by_cases hne : held = []
  · subst hne
    refine ⟨[], leafRun_nil h, ?_, ?_, ?_⟩
    · exact List.Perm.refl _
    · exact fun run hr => (not_mem_nil hr).elim
    · exact fun run hr => (not_mem_nil hr).elim
  · have htypes := concatTypes_same h.read_types (h.read_ne_nil hne) supported
    have hzip : (List.map (p.key ∘ Prod.snd) held).zip held = held.map fun t => (p.tagKey t, t) :=
      map_prod_right_eq_zip.symm
    have hbest : (held.map fun t => (p.tagKey t, t)).foldl keepBest [] =
        (firsts p.tagKey [] held).map fun t => (p.tagKey t, t) := by
      rw [foldl_keepBest, nil_append, map_nil, firsts_map]
      rw [nil_append, pairwise_map]
      exact ascending
    have hsorted : (firsts p.tagKey [] held).Pairwise fun a b => a.1 < b.1 :=
      ascending.sublist firsts_sublist
    have hsort : (firsts p.tagKey [] held).mergeSort (fun a b => a.1 ≤ b.1) =
        firsts p.tagKey [] held := by
      apply mergeSort_of_pairwise
      apply hsorted.imp
      intro a b hab
      exact decide_eq_true (Nat.le_of_lt hab)
    refine ⟨[⟨S, firsts p.tagKey [] held⟩], ?_, ?_, ?_, ?_⟩
    · unfold leafRun
      simp only [h.read_rows, if_neg hne, htypes, rowKeys_ok ids, bind, Except.bind]
      have hrows : (List.map (fun t => (p.tagKey t, t)) (firsts p.tagKey [] held)).map (·.2) =
          firsts p.tagKey [] held := by
        rw [map_map]
        exact map_id _
      rw [map_map, hzip, hbest, hrows, hsort, writeMorsel, put]
      rfl
    · rw [flatMap_singleton]
    · intro run hr
      rw [mem_singleton.mp hr]
    · intro run hr
      rw [mem_singleton.mp hr]
      exact hsorted

theorem leafRun_error {d : DataType} (hd : d ∈ S.map getSeries)
    (hun : concatSupported d.id = false) (h : Holds S held part) (hne : held ≠ []) :
    ∃ e, leafRun part.file = .error e := by
  obtain ⟨front, rest, hparts⟩ := exists_cons_of_ne_nil (h.read_ne_nil hne)
  have hfront : front = S.map getSeries := by
    apply h.read_types
    rw [hparts]
    exact mem_cons_self
  obtain ⟨e, he⟩ := concatTypes_unsupported rest hd hun
  refine ⟨e, ?_⟩
  unfold leafRun
  simp only [h.read_rows, if_neg hne, hparts, hfront, he, bind, Except.bind]

end Leaf

/-! ## Deduplicating a run file -/

/-- The first rows of the keys of every file are those of all rows. -/
theorem firsts_parts (hn : 0 < n) :
    ((List.range n).flatMap fun g =>
      firsts p.tagKey [] (held.filter fun t => partOf p depth n t = g)).Perm
        (firsts p.tagKey [] held) := by
  have hclass : ∀ g, firsts p.tagKey [] (held.filter fun t => partOf p depth n t = g) =
      (firsts p.tagKey [] held).filter fun t => partOf p depth n t = g := by
    intro g
    exact firsts_filter
      (q := fun k => decide ((uniqueSpillHash p.hash k depth).toNat % n = g)) fun _ => rfl
  simp only [hclass]
  exact flatMap_filter_perm fun t _ => Nat.mod_lt _ hn

/-- The runs of several files together. -/
theorem Survivors.flatten {helds : List (List p.Tagged)} {runs : List (List (SpilledMorsel p))}
    (h : List.Forall₂ (Survivors S) helds runs)
    (hperm : (helds.flatMap (firsts p.tagKey [])).Perm (firsts p.tagKey [] held)) :
    Survivors S held runs.flatten := by
  have hrows : (runs.flatten.flatMap (·.rows)).Perm (helds.flatMap (firsts p.tagKey [])) := by
    clear hperm
    induction h with
    | nil => exact List.Perm.refl _
    | cons hx _ ih =>
      rw [flatten_cons, flatMap_append]
      exact hx.rows.append ih
  have hall : ∀ run ∈ runs.flatten, run.types = S ∧ Ascending run.rows := by
    clear hperm hrows
    induction h with
    | nil => exact fun run hr => (not_mem_nil hr).elim
    | cons hx _ ih =>
      intro run hr
      rw [flatten_cons, mem_append] at hr
      rcases hr with hr | hr
      · exact ⟨hx.types run hr, hx.ascending run hr⟩
      · exact ih run hr
  exact ⟨hrows.trans hperm, fun run hr => (hall run hr).1, fun run hr => (hall run hr).2⟩

/-- A run file without rows gives no run. -/
theorem finalizePartition_nil (seen : Seen) {part : Partition p} (h : Holds S [] part)
    (levels : Nat) : finalizePartition seen levels part = .ok [] := by
  cases levels with
  | zero =>
    exact leafRun_nil h
  | succ levels =>
    rw [finalizePartition, if_neg]
    · exact leafRun_nil h
    · rw [h.count]
      exact fun hn => Nat.not_lt_zero _ hn.2.2

/-- At a depth below the first no row is left out. -/
theorem fresh_below {levels : Nat} (hl : levels < uniqueSpillMaxDepth) (t : p.Tagged) :
    Fresh p seen (uniqueSpillMaxDepth - levels) t := by
  intro h
  exact absurd h.1 (Nat.sub_ne_zero_of_lt hl)

section Finalize

variable {part : Partition p} {held : List p.Tagged} {levels : Nat}

/-- Reading a run file and partitioning it again spreads its rows over new files. -/
theorem repartition (seen : Seen) (hl : levels < uniqueSpillMaxDepth)
    (ids : (S.map getSeries).map (·.id) = p.types.map (·.id))
    (put : (S.map getSeries).mapM putSeries = .ok S) (h : Holds S held part) :
    ∃ parts', partitionAll seen (uniqueSpillMaxDepth - levels) (part.file.map readMorsel)
        (List.replicate uniqueSpillFanout (Partition.empty p)) = .ok parts' ∧
      HoldAll S parts' uniqueSpillFanout fun g =>
        held.filter fun t => partOf p (uniqueSpillMaxDepth - levels) uniqueSpillFanout t = g := by
  have htypes : ∀ m ∈ part.file.map readMorsel, m.types = S.map getSeries :=
    fun m hm => h.read_types _ (mem_map_of_mem hm)
  obtain ⟨parts', hparts, hold⟩ := partitionAll_ok seen
    (uniqueSpillMaxDepth - levels) (part.file.map readMorsel)
    (fun m hm => by rw [htypes m hm]; exact ids) (fun m hm _ => by rw [htypes m hm]; exact put)
    (holdAll_empty S uniqueSpillFanout)
  refine ⟨parts', hparts, ?_⟩
  have hall : held.filter (fun t => Fresh p seen (uniqueSpillMaxDepth - levels) t) = held :=
    filter_eq_self.mpr fun t _ => decide_eq_true (fresh_below hl t)
  simp only [h.read_rows, hall] at hold
  exact hold

/-- A run file gives the first row of each of its keys, however often it is partitioned. -/
theorem finalizePartition_ok (ids : (S.map getSeries).map (·.id) = p.types.map (·.id))
    (put : (S.map getSeries).mapM putSeries = .ok S)
    (supported : ∀ d ∈ S.map getSeries, concatSupported d.id = true)
    (hl : levels ≤ uniqueSpillMaxDepth) (h : Holds S held part) (ascending : Ascending held) :
    ∃ runs, finalizePartition seen levels part = .ok runs ∧ Survivors S held runs := by
  induction levels generalizing part held with
  | zero =>
    exact leafRun_ok ids put supported h ascending
  | succ levels ih =>
    rw [finalizePartition]
    split
    · obtain ⟨parts', hparts, hold⟩ := repartition seen hl ids put h
      have heach : List.Forall₂
          (fun part held => ∃ runs, finalizePartition seen levels part = .ok runs ∧
            Survivors S held runs) parts'
          ((List.range uniqueSpillFanout).map fun g => held.filter fun t =>
            partOf p (uniqueSpillMaxDepth - levels) uniqueSpillFanout t = g) := by
        apply List.Forall₂.flip
        apply forall₂_iff_get.mpr
        refine ⟨hold.length_eq, fun i h₁ h₂ => ?_⟩
        apply ih (Nat.le_of_lt hl) ((forall₂_iff_get.mp hold).2 i h₁ h₂)
        simp only [get_eq_getElem, getElem_map]
        exact ascending.sublist filter_sublist
      obtain ⟨runs, hruns, hsurv⟩ := mapM_forall₂ heach
      refine ⟨runs.flatten, ?_, ?_⟩
      · simp only [bind, Except.bind, hparts, hruns]
        rfl
      · apply Survivors.flatten hsurv
        rw [flatMap_map]
        exact firsts_parts (by decide)
    · exact leafRun_ok ids put supported h ascending

/-- Rows in columns that cannot be put together make the deduplication fail. -/
theorem finalizePartition_error (seen : Seen)
    (ids : (S.map getSeries).map (·.id) = p.types.map (·.id))
    (put : (S.map getSeries).mapM putSeries = .ok S) {d : DataType} (hd : d ∈ S.map getSeries)
    (hun : concatSupported d.id = false) (hl : levels ≤ uniqueSpillMaxDepth)
    (h : Holds S held part) (hne : held ≠ []) :
    ∃ e, finalizePartition seen levels part = .error e := by
  induction levels generalizing part held with
  | zero =>
    exact leafRun_error hd hun h hne
  | succ levels ih =>
    rw [finalizePartition]
    split
    · obtain ⟨parts', hparts, hold⟩ := repartition seen hl ids put h
      obtain ⟨t, ht⟩ := exists_mem_of_ne_nil held hne
      have hlt : partOf p (uniqueSpillMaxDepth - levels) uniqueSpillFanout t < parts'.length := by
        rw [hold.length]
        exact Nat.mod_lt _ (by decide)
      have hpart := (forall₂_iff_get.mp hold).2 _ (hold.length_eq ▸ hlt) hlt
      simp only [get_eq_getElem, getElem_map, getElem_range] at hpart
      obtain ⟨e, he⟩ := ih (Nat.le_of_lt hl) hpart
        (ne_nil_of_mem (mem_filter.mpr ⟨ht, decide_eq_true rfl⟩))
      obtain ⟨e', he'⟩ := mapM_error (getElem_mem hlt) he
      refine ⟨e', ?_⟩
      simp only [bind, Except.bind, hparts, he']
    · exact leafRun_error hd hun h hne

end Finalize

end DFTracer.Frames
