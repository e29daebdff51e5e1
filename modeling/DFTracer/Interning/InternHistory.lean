/-
# Interning over a history

Whatever is called, in any order, strings and numbers stay in bijection: a string keeps the number
that was returned for it, no other string gets it, and it resolves to the string. A call that
throws changes nothing. What is written of the entries, whenever it is written, fills a fresh
table with the same strings behind the same numbers.
-/

import DFTracer.Interning.InternTable

namespace DFTracer.Interning

open DFTracer.Math List
open DFTracer.Math.SortedRows (Rows put seek startsWith Sorted)
open DFTracer.Aggregation (Bytes)

/-- The calls on a table. -/
inductive Call where
  | getOrInsert (sv : Bytes)
  | insertAtId (id : Nat) (sv : Bytes)
  | enableDeterministicIds

/-- What a call returns, and the table after it. -/
def Call.run (t : StringIntern) : Call → Except InternError (Option Nat) × StringIntern
  | .getOrInsert sv => ((t.getOrInsert sv).1.map some, (t.getOrInsert sv).2)
  | .insertAtId id sv => ((t.insertAtId id sv).1.map fun _ => none, (t.insertAtId id sv).2)
  | .enableDeterministicIds => (.ok none, t.enableDeterministicIds)

/-- The table after calls. -/
def after (calls : List Call) : StringIntern :=
  calls.foldl (fun t call => (call.run t).2) StringIntern.fresh

section Step

variable {t : StringIntern} {d : Dictionary}

/-- The dictionary only goes on, and a call that throws leaves the table. -/
theorem Call.run_cases (h : t.Represents d) (call : Call) :
    (∃ d', (call.run t).2.Represents d' ∧ d.Extends d') ∧
      ∀ e, (call.run t).1 = .error e → e ≠ .loops ∧ (call.run t).2 = t := by
  cases call with
  | getOrInsert sv =>
    rcases StringIntern.getOrInsert_cases h sv with
      ⟨id, -, same⟩ | ⟨-, e, real, same⟩ | ⟨-, id, free, fits, t', same, represents⟩
    · simp only [Call.run, same]
      exact ⟨⟨d, h, .refl d⟩, fun e he => by cases he⟩
    · simp only [Call.run, same]
      refine ⟨⟨d, h, .refl d⟩, fun e' he => ⟨?_, trivial⟩⟩
      cases he
      exact real
    · simp only [Call.run, same]
      exact ⟨⟨_, represents, Dictionary.extends_bind free fits⟩, fun e he => by cases he⟩
  | insertAtId id sv =>
    rcases StringIntern.insertAtId_cases h id sv with
      ⟨-, same⟩ | ⟨-, e, real, same⟩ | ⟨free, fits, t', same, represents⟩
    · simp only [Call.run, same]
      exact ⟨⟨d, h, .refl d⟩, fun e he => by cases he⟩
    · simp only [Call.run, same]
      refine ⟨⟨d, h, .refl d⟩, fun e' he => ⟨?_, trivial⟩⟩
      cases he
      exact real
    · simp only [Call.run, same]
      exact ⟨⟨_, represents, Dictionary.extends_bind free fits⟩, fun e he => by cases he⟩
  | enableDeterministicIds =>
    refine ⟨⟨d, ?_, .refl d⟩, fun e he => by cases he⟩
    exact ⟨h.value, h.count, h.entry, h.below, h.top, h.index⟩

theorem run_represents (calls : List Call) : ∀ {t : StringIntern} {d : Dictionary},
    t.Represents d → ∃ d', (calls.foldl (fun t call => (call.run t).2) t).Represents d' ∧
      d.Extends d' := by
  induction calls with
  | nil => exact fun {t d} h => ⟨d, h, .refl d⟩
  | cons call calls ih =>
    intro t d h
    obtain ⟨d', represents, first⟩ := (call.run_cases h).1
    obtain ⟨d'', last, more⟩ := ih represents
    exact ⟨d'', last, first.trans more⟩

end Step

/-- A table after calls is a dictionary. -/
theorem after_represents (calls : List Call) : ∃ d, (after calls).Represents d := by
  obtain ⟨d, represents, -⟩ := run_represents calls StringIntern.represents_fresh
  exact ⟨d, represents⟩

/-- Later calls only add to it. -/
theorem after_append {calls : List Call} {d : Dictionary} (h : (after calls).Represents d)
    (more : List Call) : ∃ d', (after (calls ++ more)).Represents d' ∧ d.Extends d' := by
  unfold after at h ⊢
  rw [foldl_append]
  exact run_represents more h

namespace StringIntern

variable {t : StringIntern} {d : Dictionary}

section

variable (h : t.Represents d) {id : Nat} {sv : Bytes}

include h

theorem resolve_eq (bound : d.valueOf id = some sv) :
    t.resolve id = .ok sv := by
  have value := h.value id
  rw [bound, slotValue, if_neg (Nat.not_le.mpr (Dictionary.valueOf_lt bound))] at value
  rw [resolve, if_neg (Nat.not_le.mpr (Dictionary.valueOf_lt bound)), value]
  rfl

theorem entryId_eq {n : Nat} (inside : n < d.bindings.length) :
    t.entryId n = d.bindings[n].1 := by
  rw [entryId, h.entry n inside]
  rfl

/-- The entries are the bound numbers in their order. -/
theorem entries_eq :
    (List.range t.entryCount).map t.entryId = d.bindings.map Prod.fst := by
  apply ext_getElem
  · rw [length_map, length_range, length_map, h.count]
  · intro n hn hn'
    rw [length_map] at hn'
    rw [getElem_map, getElem_map, getElem_range, entryId_eq h hn']

/-- A number that is returned is the first of its string. -/
theorem idOf_of_getOrInsert (returned : (t.getOrInsert sv).1 = .ok id) :
    ∃ d', (t.getOrInsert sv).2.Represents d' ∧ d.Extends d' ∧ d'.idOf sv = some id := by
  rcases getOrInsert_cases h sv with
    ⟨other, found, same⟩ | ⟨-, e, -, same⟩ | ⟨new, other, free, fits, t', same, represents⟩
  · rw [same] at returned ⊢
    cases returned
    exact ⟨d, h, .refl d, found⟩
  · rw [same] at returned
    cases returned
  · rw [same] at returned ⊢
    cases returned
    refine ⟨_, represents, Dictionary.extends_bind free fits, ?_⟩
    rw [Dictionary.idOf_bind, new, if_pos rfl]
    rfl

/-- A string that has a number gets it again. -/
theorem getOrInsert_again (found : d.idOf sv = some id) : (t.getOrInsert sv).1 = .ok id := by
  rcases getOrInsert_cases h sv with
    ⟨other, again, same⟩ | ⟨new, -⟩ | ⟨new, -⟩
  · rw [same]
    cases found.symm.trans again
    rfl
  · rw [found] at new
    cases new
  · rw [found] at new
    cases new

end

end StringIntern

/-! ## What is written -/

/-- A table whose entries are written to a store now and then. -/
structure Session where
  table : AggInternTable
  rows : Rows Bytes

inductive Event where
  | call (call : Call)
  | flush

/-- A session goes on. A flush that throws writes nothing. -/
def Session.step (s : Session) : Event → Session
  | .call call => { s with table.intern := (call.run s.table.intern).2 }
  | .flush =>
    match flushInternDictionary s.rows s.table with
    | .ok (rows, table) => ⟨table, rows⟩
    | .error _ => s

/-- The dictionary rows of a store are bindings. -/
def Sound (rows : Rows Bytes) (d : Dictionary) : Prop :=
  ∀ r ∈ rows, startsWith internDictPrefix r.1 = true →
    ∃ id sv, r = (dictKey id, sv) ∧ d.valueOf id = some sv

/-- The store has the bindings of a dictionary from a first one up to the watermark. -/
structure Keeps (first : Nat) (s : Session) (d : Dictionary) : Prop where
  represents : s.table.intern.Represents d
  sorted : Sorted s.rows
  sound : Sound s.rows d
  reached : first < s.table.flushedEntries → s.table.flushedEntries ≤ d.bindings.length
  written : ∀ n, first ≤ n → n < s.table.flushedEntries → ∀ b, d.bindings[n]? = some b →
    (dictKey b.1, b.2) ∈ s.rows

section Flush

variable {d : Dictionary} {intern : StringIntern} {first : Nat} {s : Session}

/-- Writing an entry of the dictionary, with the others that are written. -/
theorem putEntry_eq (h : intern.Represents d) {rows : Rows Bytes} (sorted : Sorted rows)
    (sound : Sound rows d) {n : Nat} (inside : n < d.bindings.length) :
    ∃ rows', putEntry intern rows n = .ok rows' ∧ Sorted rows' ∧ Sound rows' d ∧
      (dictKey d.bindings[n].1, d.bindings[n].2) ∈ rows' ∧
      ∀ b ∈ d.bindings, (dictKey b.1, b.2) ∈ rows → (dictKey b.1, b.2) ∈ rows' := by
  have bound : d.valueOf d.bindings[n].1 = some d.bindings[n].2 :=
    Dictionary.valueOf_eq_some.mpr (getElem_mem inside)
  refine ⟨put rows (dictKey d.bindings[n].1) d.bindings[n].2, ?_,
    SortedRows.sorted_put sorted, ?_, SortedRows.mem_put.mpr (.inl rfl), ?_⟩
  · rw [putEntry, StringIntern.entryId_eq h inside, StringIntern.resolve_eq h bound]
    rfl
  · intro r hr starts
    rcases SortedRows.mem_put.mp hr with rfl | ⟨old, -⟩
    · exact ⟨_, _, rfl, bound⟩
    · exact sound r old starts
  · intro b hb old
    by_cases same : dictKey b.1 = dictKey d.bindings[n].1
    · have one := dictKey_injective (d.inRange b hb) (d.inRange _ (getElem_mem inside)) same
      have value : d.valueOf b.1 = some b.2 := Dictionary.valueOf_eq_some.mpr hb
      rw [one, bound] at value
      refine SortedRows.mem_put.mpr (.inl ?_)
      rw [same, Option.some.inj value]
    · exact SortedRows.mem_put.mpr (.inr ⟨old, same⟩)

/-- Writing the entries from one on. -/
theorem putEntries_eq (h : intern.Represents d) : ∀ (count start : Nat) {rows : Rows Bytes},
    Sorted rows → Sound rows d → start + count ≤ d.bindings.length →
      ∃ rows', (List.range' start count).foldlM (putEntry intern) rows = .ok rows' ∧
        Sorted rows' ∧ Sound rows' d ∧
        (∀ n, start ≤ n → n < start + count → ∀ b, d.bindings[n]? = some b →
          (dictKey b.1, b.2) ∈ rows') ∧
        ∀ b ∈ d.bindings, (dictKey b.1, b.2) ∈ rows → (dictKey b.1, b.2) ∈ rows' := by
  intro count
  induction count with
  | zero =>
    intro start rows sorted sound _
    exact ⟨rows, rfl, sorted, sound, fun n low high => by omega, fun b _ old => old⟩
  | succ count ih =>
    intro start rows sorted sound inside
    obtain ⟨rows', hput, sorted', sound', new, kept⟩ :=
      putEntry_eq h sorted sound (show start < d.bindings.length by omega)
    obtain ⟨rows'', hrest, sorted'', sound'', later, kept'⟩ :=
      ih (start + 1) sorted' sound' (by omega)
    refine ⟨rows'', ?_, sorted'', sound'', ?_, fun b hb old => kept' b hb (kept b hb old)⟩
    · rw [range'_succ, foldlM_cons, hput]
      exact hrest
    · intro n low high b hb
      by_cases same : n = start
      · subst same
        obtain ⟨bound, rfl⟩ := List.getElem?_eq_some_iff.mp hb
        exact kept' _ (getElem_mem bound) new
      · exact later n (by omega) (by omega) b hb

/-- A flush writes what is past the watermark. -/
theorem Keeps.flush (h : Keeps first s d) (start : first ≤ s.table.flushedEntries) :
    Keeps first (s.step .flush) d ∧ first ≤ (s.step .flush).table.flushedEntries := by
  obtain ⟨⟨intern, flushed⟩, rows⟩ := s
  have count : intern.entryCount % 2 ^ 32 = d.bindings.length := by
    have most := d.length_le
    have small : fastCapacity < 2 ^ 32 := by decide
    rw [h.represents.count, Nat.mod_eq_of_lt (by omega)]
  simp only [Session.step, flushInternDictionary, count]
  by_cases done : d.bindings.length ≤ flushed
  · rw [if_pos done]
    exact ⟨h, start⟩
  · have inside : flushed + (d.bindings.length - flushed) ≤ d.bindings.length := by omega
    obtain ⟨rows', hrows, sorted, sound, new, kept⟩ :=
      putEntries_eq h.represents _ flushed h.sorted h.sound inside
    rw [if_neg done, hrows]
    refine ⟨⟨h.represents, sorted, sound, fun _ => Nat.le_refl _, ?_⟩, ?_⟩
    · intro n low high b hb
      by_cases old : n < flushed
      · exact kept b (mem_of_getElem? hb) (h.written n low old b hb)
      · have high : n < d.bindings.length := high
        exact new n (by omega) (by omega) b hb
    · exact start.trans (Nat.le_of_lt (Nat.not_le.mp done))

theorem Keeps.call (h : Keeps first s d) (call : Call) (start : first ≤ s.table.flushedEntries) :
    ∃ d', Keeps first (s.step (.call call)) d' ∧
      first ≤ (s.step (.call call)).table.flushedEntries := by
  obtain ⟨⟨d', represents, extends'⟩, -⟩ := call.run_cases h.represents
  refine ⟨d', ⟨represents, h.sorted, ?_, ?_, ?_⟩, start⟩
  · intro r hr starts
    obtain ⟨id, sv, same, bound⟩ := h.sound r hr starts
    exact ⟨id, sv, same, extends'.valueOf bound⟩
  · intro passed
    exact (h.reached passed).trans extends'.length_le
  · intro n low high b hb
    have old : n < d.bindings.length := lt_of_lt_of_le high (h.reached (by
      exact lt_of_le_of_lt low high))
    apply h.written n low high b
    obtain ⟨more, same⟩ := extends'
    rw [← same, getElem?_append_left old] at hb
    exact hb

end Flush

theorem keeps_run {first : Nat} (events : List Event) : ∀ {s : Session} {d : Dictionary},
    Keeps first s d → first ≤ s.table.flushedEntries →
      ∃ d', Keeps first (events.foldl Session.step s) d' := by
  induction events with
  | nil => exact fun {s d} h _ => ⟨d, h⟩
  | cons event events ih =>
    intro s d h start
    cases event with
    | call call =>
      obtain ⟨d', kept, start'⟩ := h.call call start
      exact ih kept start'
    | flush =>
      obtain ⟨kept, start'⟩ := h.flush start
      exact ih kept start'

/-- The row of an entry. -/
def isDictRow (r : Bytes × Bytes) : Bool := startsWith internDictPrefix r.1

/-- Rows that are bindings of one dictionary fill a table without a conflict. -/
theorem insertRows_eq {d : Dictionary} : ∀ {rows : Rows Bytes} {t : StringIntern} {d₀ : Dictionary},
    t.Represents d₀ → (∀ id sv, d₀.valueOf id = some sv → d.valueOf id = some sv) →
    (∀ r ∈ rows.takeWhile isDictRow,
      ∃ id sv, r = (dictKey id, sv) ∧ d.valueOf id = some sv) →
    ∃ t' d', insertRows rows t = (.ok (), t') ∧ t'.Represents d' ∧ d₀.Extends d' ∧
      ∀ id sv, (dictKey id, sv) ∈ rows.takeWhile isDictRow →
        id < fastCapacity → d'.valueOf id = some sv := by
  intro rows
  induction rows with
  | nil =>
    intro t d₀ h _ _
    refine ⟨t, d₀, rfl, h, .refl d₀, fun id sv hmem => ?_⟩
    cases hmem
  | cons r rows ih =>
    intro t d₀ h agrees sound
    obtain ⟨key, value⟩ := r
    by_cases starts : isDictRow (key, value) = true
    · rw [takeWhile_cons_of_pos starts] at sound ⊢
      obtain ⟨id, sv, same, bound⟩ := sound _ mem_cons_self
      cases same
      have fits := Dictionary.valueOf_lt bound
      have narrow : id % 2 ^ 32 = id := by
        have small : fastCapacity < 2 ^ 32 := by decide
        exact Nat.mod_eq_of_lt (by omega)
      have later : ∀ r ∈ rows.takeWhile isDictRow,
          ∃ id sv, r = (dictKey id, sv) ∧ d.valueOf id = some sv :=
        fun r hr => sound r (mem_cons_of_mem _ hr)
      -- the number is free or has the string already
      obtain ⟨t', d', hinsert, represents, grown, here, agrees'⟩ : ∃ t' d',
          t.insertAtId id value = (.ok (), t') ∧ t'.Represents d' ∧ d₀.Extends d' ∧
          d'.valueOf id = some value ∧
          ∀ id sv, d'.valueOf id = some sv → d.valueOf id = some sv := by
        rcases StringIntern.insertAtId_cases h id value with
          ⟨old, same⟩ | ⟨refused, -⟩ | ⟨free, fits', t', same, represents⟩
        · exact ⟨t, d₀, same, h, .refl d₀, old, agrees⟩
        · exfalso
          rcases refused with far | ⟨existing, other, taken⟩
          · omega
          · exact other (Option.some.inj ((agrees id existing taken).symm.trans bound))
        · refine ⟨t', _, same, represents, Dictionary.extends_bind free fits', ?_, ?_⟩
          · rw [Dictionary.valueOf_bind, if_pos rfl]
          · intro other sv hsv
            rw [Dictionary.valueOf_bind] at hsv
            split at hsv
            next new =>
              rw [new, bound]
              exact hsv
            next => exact agrees other sv hsv
      obtain ⟨t'', d'', hrest, last, more, all⟩ := ih represents agrees' later
      refine ⟨t'', d'', ?_, last, grown.trans more, ?_⟩
      · rw [insertRows, readVarint_dictKey fits]
        simp only [narrow, hinsert]
        exact hrest
      · intro other sv hmem fits'
        rcases mem_cons.mp hmem with same | later
        · have one := dictKey_injective fits' fits (Prod.mk.inj same).1
          rw [one, (Prod.mk.inj same).2]
          exact more.valueOf here
        · exact all other sv later fits'
    · rw [takeWhile_cons_of_neg (by simpa using starts)]
      refine ⟨t, d₀, ?_, h, .refl d₀, fun id sv hmem => ?_⟩
      · have plain : ¬ startsWith internDictPrefix key = true := starts
        rw [insertRows, if_neg plain]
      · cases hmem

/-! ## Strings and numbers -/

/-- After these calls, and whatever is called later, strings and numbers are in bijection. -/
structure InBijection (calls : List Call) : Prop where
  /-- the entries are the bound numbers, each once -/
  entries : ((List.range (after calls).entryCount).map (after calls).entryId).Nodup ∧
    ∀ id, id ∈ (List.range (after calls).entryCount).map (after calls).entryId ↔
      ((after calls).slotValue id).isSome
  /-- the log has room for them -/
  room : (after calls).entryCount ≤ fastCapacity
  /-- a call that throws changes nothing, and every call returns or throws -/
  rejected : ∀ call e, (Call.run (after calls) call).1 = .error e →
    e ≠ .loops ∧ (Call.run (after calls) call).2 = after calls
  /-- a returned number stays with its string and is no other string's -/
  returned : ∀ sv id, ((after calls).getOrInsert sv).1 = .ok id → ∀ more,
    ((after (calls ++ .getOrInsert sv :: more)).getOrInsert sv).1 = .ok id ∧
      (after (calls ++ .getOrInsert sv :: more)).resolve id = .ok sv ∧
      ∀ other, ((after (calls ++ .getOrInsert sv :: more)).getOrInsert other).1 = .ok id →
        other = sv
  /-- a bound number keeps its string -/
  meaning : ∀ id sv, (after calls).slotValue id = some sv → ∀ more,
    (after (calls ++ more)).slotValue id = some sv

/-- A session that starts with an empty table and any watermark, on a store without dictionary
rows. -/
def session (rows : Rows Bytes) (first : Nat) (events : List Event) : Session :=
  events.foldl Session.step ⟨⟨StringIntern.fresh, first⟩, rows⟩

/-- What is written of a session fills a fresh table with the same strings behind the same
numbers, and the entries between the watermarks are written. -/
structure Reloads (first : Nat) (s : Session) : Prop where
  loaded : ∃ t, loadInternDictionary s.rows ⟨StringIntern.fresh, 0⟩ = (.ok (), t) ∧
    ∀ r ∈ s.rows, isDictRow r = true → ∃ id, r.1 = dictKey id ∧
      s.table.intern.resolve id = .ok r.2 ∧ t.intern.resolve id = .ok r.2
  written : ∀ n, first ≤ n → n < s.table.flushedEntries → ∃ sv,
    s.table.intern.resolve (s.table.intern.entryId n) = .ok sv ∧
      (dictKey (s.table.intern.entryId n), sv) ∈ s.rows

theorem inBijection (calls : List Call) : InBijection calls := by
  obtain ⟨d, represents⟩ := after_represents calls
  have entries := StringIntern.entries_eq represents
  constructor
  · rw [entries]
    refine ⟨d.distinct, fun id => ?_⟩
    rw [represents.value id, Option.isSome_iff_exists, mem_map]
    constructor
    · rintro ⟨b, hb, rfl⟩
      exact ⟨b.2, Dictionary.valueOf_eq_some.mpr hb⟩
    · rintro ⟨sv, bound⟩
      exact ⟨_, Dictionary.valueOf_eq_some.mp bound, rfl⟩
  · rw [represents.count]
    exact d.length_le
  · intro call e he
    exact (call.run_cases represents).2 e he
  · intro sv id hid more
    obtain ⟨d', represents', grown, found⟩ := StringIntern.idOf_of_getOrInsert represents hid
    obtain ⟨last, representsLast, grownLast⟩ := run_represents more represents'
    have later : after (calls ++ .getOrInsert sv :: more) =
        more.foldl (fun t call => (call.run t).2) ((after calls).getOrInsert sv).2 := by
      unfold after
      rw [foldl_append]
      rfl
    rw [later]
    have still := grownLast.idOf found
    refine ⟨StringIntern.getOrInsert_again representsLast still,
      StringIntern.resolve_eq representsLast (Dictionary.valueOf_idOf still), fun other hother => ?_⟩
    obtain ⟨after', -, grownAfter, foundOther⟩ :=
      StringIntern.idOf_of_getOrInsert representsLast hother
    have one := Dictionary.valueOf_idOf (grownAfter.idOf still)
    exact Option.some.inj ((Dictionary.valueOf_idOf foundOther).symm.trans one)
  · intro id sv bound more
    rw [represents.value] at bound
    obtain ⟨d', represents', grown⟩ := after_append represents more
    rw [represents'.value]
    exact grown.valueOf bound

theorem reloads {rows : Rows Bytes} (sorted : Sorted rows)
    (plain : ∀ r ∈ rows, isDictRow r = false) (first : Nat) (events : List Event) :
    Reloads first (session rows first events) := by
  have start : Keeps first ⟨⟨StringIntern.fresh, first⟩, rows⟩ Dictionary.empty := by
    refine ⟨StringIntern.represents_fresh, sorted, ?_, ?_, ?_⟩
    · intro r hr starts
      have lacks : startsWith internDictPrefix r.1 = false := plain r hr
      rw [lacks] at starts
      cases starts
    · intro passed
      exact absurd passed (Nat.lt_irrefl first)
    · intro n low high
      exact absurd (Nat.lt_of_le_of_lt low high) (Nat.lt_irrefl first)
  obtain ⟨d, kept⟩ := keeps_run events start (Nat.le_refl first)
  constructor
  · have scanned : ∀ r ∈ (seek (session rows first events).rows internDictPrefix).takeWhile
        isDictRow, ∃ id sv, r = (dictKey id, sv) ∧ d.valueOf id = some sv := by
      intro r hr
      obtain ⟨hmem, starts⟩ := (SortedRows.mem_scan kept.sorted).mp hr
      exact kept.sound r hmem starts
    have nothing : ∀ id sv, Dictionary.empty.valueOf id = some sv → d.valueOf id = some sv :=
      fun id sv h => by cases h
    obtain ⟨t, d', hload, represents, -, all⟩ :=
      insertRows_eq StringIntern.represents_fresh nothing scanned
    refine ⟨⟨t, t.entryCount % 2 ^ 32⟩, ?_, ?_⟩
    · rw [loadInternDictionary, hload]
    · intro r hr starts
      obtain ⟨id, sv, rfl, bound⟩ := kept.sound r hr starts
      have reached := (SortedRows.mem_scan kept.sorted).mpr ⟨hr, starts⟩
      exact ⟨id, rfl, StringIntern.resolve_eq kept.represents bound,
        StringIntern.resolve_eq represents (all id sv reached (Dictionary.valueOf_lt bound))⟩
  · intro n low high
    have inside : n < d.bindings.length :=
      lt_of_lt_of_le high (kept.reached (lt_of_le_of_lt low high))
    have bound : d.valueOf d.bindings[n].1 = some d.bindings[n].2 :=
      Dictionary.valueOf_eq_some.mpr (getElem_mem inside)
    have entry : (session rows first events).table.intern.entryId n = d.bindings[n].1 :=
      StringIntern.entryId_eq kept.represents inside
    rw [entry]
    exact ⟨_, StringIntern.resolve_eq kept.represents bound,
      kept.written n low high _ (getElem?_eq_getElem inside)⟩

end DFTracer.Interning
