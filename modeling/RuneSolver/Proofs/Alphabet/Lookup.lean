import Mathlib.Data.List.Forall2
import RuneSolver.Proofs.Alphabet

/-!
Alphabets whose rows override one another. The rows by character and the rows by index are filled
one apart from the other, so a row may be overridden in one of them and stay in the other. Main
statement: both lookups find the last row there is, every row that overrides another is reported
with it, and a table is refused for a malformed line, for having no row, or for its indices.
-/

namespace RuneSolver

/-! ### Rows -/

/-- The lines of a table that are not passed over. -/
def dataLines (source : String) : List (List Char) :=
  (Text.lines source.toList).filter carriesData

/-- No line of the table is malformed, and these are its rows in order. -/
def HasRows (source : String) (rows : List Rune) : Prop :=
  List.Forall₂ (fun line (r : Rune) => r.WrittenOn line) (dataLines source) rows

/-- What a row overrides behind earlier ones: the last row of its character, then the last one of
its index. -/
def overriddenBehind (earlier : List Rune) (r : Rune) : List Overridden :=
  ((earlier.reverse.find? (·.symbol == r.symbol)).map
      fun p => .symbol r.symbol p.index r.index).toList ++
    ((earlier.reverse.find? (·.index == r.index)).map
      fun p => .index r.index p.symbol r.symbol).toList

/-- What rows override, each of them behind those before it. -/
def overriddenBy (rows : List Rune) : List Overridden :=
  rows.zipIdx.flatMap fun row => overriddenBehind (rows.take row.2) row.1

lemma Rune.WrittenOn.unique {r q : Rune} {line : List Char} (hr : r.WrittenOn line)
    (hq : q.WrittenOn line) : r = q := by
  have hread : ofLine 1 line = .ok r := ofLine_eq_ok_iff.mpr hr
  rw [ofLine_eq_ok_iff.mpr hq] at hread
  exact (Except.ok.inj hread).symm

lemma HasRows.unique {source : String} {rows rows' : List Rune} (h : HasRows source rows)
    (h' : HasRows source rows') : rows = rows' :=
  List.right_unique_forall₂' (fun _ _ _ hr hq => hr.unique hq) h h'

/-- Lines hold rows, or one of them is malformed. -/
lemma exists_rows_or_malformed (lines : List (List Char)) :
    (∃ rows, List.Forall₂ (fun line (r : Rune) => r.WrittenOn line) lines rows) ∨
      ∃ line ∈ lines, ∀ r : Rune, ¬r.WrittenOn line := by
  by_cases h : ∀ line ∈ lines, ∃ r : Rune, r.WrittenOn line
  · exact .inl (exists_forall₂_iff.mpr h)
  · simpa only [not_forall, not_exists, exists_prop] using Or.inr h

namespace RuneRows

lemma overridden_ofRunes (earlier : List Rune) (r : Rune) :
    (ofRunes earlier).overridden r = overriddenBehind earlier r := by
  rw [overridden, getElem?_bySymbol_ofRunes, getElem?_byIndex_ofRunes, overriddenBehind]

lemma insert_ofRunes (earlier : List Rune) (r : Rune) :
    (ofRunes earlier).insert r = ofRunes (earlier ++ [r]) := by
  rw [ofRunes, ofRunes, List.foldl_append]
  rfl

/-- Reading lines behind earlier rows. -/
lemma addLines_ofRunes {lines : List (List Char × ℕ)} (earlier : List Rune) {rows : List Rune}
    (h : List.Forall₂ (fun line (r : Rune) => r.WrittenOn line)
      ((lines.map Prod.fst).filter carriesData) rows) :
    (ofRunes earlier).addLines lines =
      ((rows.zipIdx earlier.length).flatMap fun row =>
          overriddenBehind ((earlier ++ rows).take row.2) row.1,
        .ok (ofRunes (earlier ++ rows))) := by
  induction lines generalizing earlier rows with
  | nil =>
    cases h
    rw [List.append_nil]
    rfl
  | cons line lines ih =>
    rw [List.map_cons] at h
    rw [addLines]
    cases hdata : carriesData line.1 with
    | false =>
      rw [List.filter_cons_of_neg (by rw [hdata]; exact Bool.false_ne_true)] at h
      rw [if_neg Bool.false_ne_true]
      exact ih earlier h
    | true =>
      rw [List.filter_cons_of_pos hdata, List.forall₂_cons_left_iff] at h
      obtain ⟨r, rest, hline, hrest, rfl⟩ := h
      rw [if_pos rfl, Rune.ofLine_eq_ok_iff.mpr hline]
      simp only
      rw [insert_ofRunes, ih _ hrest, overridden_ofRunes, List.zipIdx_cons, List.flatMap_cons,
        List.take_left, List.append_assoc, List.singleton_append, List.length_append,
        List.length_singleton]

lemma readsRows_addLines :
    ReadsRows (fun rows lines => (addLines rows lines).2) carriesData Rune.ofLine insert where
  nil _ := rfl
  cons rows line lines := by
    simp only [addLines]
    cases carriesData line.1 with
    | false => rfl
    | true => cases Rune.ofLine line.2 line.1 <;> rfl

/-- A malformed line is refused, wherever it stands. -/
lemma exists_error_of_malformed (rows : RuneRows) {lines : List (List Char × ℕ)}
    {line : List Char × ℕ} (hline : line ∈ lines) (hdata : carriesData line.1 = true)
    (hmalformed : ∀ r : Rune, ¬r.WrittenOn line.1) :
    ∃ e, (rows.addLines lines).2 = .error e := by
  cases hresult : (rows.addLines lines).2 with
  | error e => exact ⟨e, rfl⟩
  | ok last =>
    obtain ⟨read, hread, -⟩ := (readsRows_addLines.eq_ok_iff Rune.ofLine_eq_ok_iff).mp hresult
    have hcarried : line.1 ∈ (lines.map Prod.fst).filter carriesData :=
      List.mem_filter.mpr ⟨List.mem_map_of_mem hline, hdata⟩
    obtain ⟨r, hr⟩ := exists_forall₂_iff.mp ⟨read, hread⟩ line.1 hcarried
    exact absurd hr (hmalformed r)

end RuneRows

/-! ### Indices -/

lemma nodup_indices (table : Std.HashMap UInt64 Rune) :
    (table.keys.map UInt64.toNat).Nodup := by
  have hkeys : table.keys.Nodup :=
    Std.HashMap.distinct_keys.imp fun hne => by simpa using hne
  exact List.Pairwise.map UInt64.toNat (fun _ _ hne h => hne (UInt64.toNat_inj.mp h)) hkeys

/-- There are no more indices than words of sixty-four bits. -/
lemma size_le (table : Std.HashMap UInt64 Rune) : table.size ≤ 2 ^ 64 := by
  have hsubset : table.keys.map UInt64.toNat ⊆ List.range (2 ^ 64) := by
    intro n hn
    obtain ⟨i, -, rfl⟩ := List.mem_map.mp hn
    exact List.mem_range.mpr i.toNat_lt
  have hlength := ((nodup_indices table).subperm hsubset).length_le
  rwa [List.length_map, Std.HashMap.length_keys, List.length_range] at hlength

namespace Alphabet

lemma exists_collect {byIndex : Std.HashMap UInt64 Rune} {index left : ℕ}
    (h : ∀ k < left, ∃ r, byIndex[UInt64.ofNat (index + k)]? = some r) :
    ∃ runes, collect byIndex index left = .ok runes := by
  induction left generalizing index with
  | zero => exact ⟨[], rfl⟩
  | succ left ih =>
    obtain ⟨r, hr⟩ := h 0 (Nat.succ_pos left)
    rw [Nat.add_zero] at hr
    have hrest : ∀ k < left, ∃ r, byIndex[UInt64.ofNat (index + 1 + k)]? = some r := by
      intro k hk
      rw [Nat.add_right_comm]
      exact h (k + 1) (Nat.succ_lt_succ hk)
    obtain ⟨runes, hrunes⟩ := ih hrest
    exact ⟨r :: runes, by rw [collect, hr]; simp only [hrunes]; rfl⟩

/-- The numbers that are taken as indices are those below some bound. -/
def Contiguous (byIndex : Std.HashMap UInt64 Rune) : Prop :=
  ∃ n, ∀ k : ℕ, (∃ i ∈ byIndex, i.toNat = k) ↔ k < n

/-- The bound is the number of rows, which is what is looked for. -/
lemma exists_collect_iff (byIndex : Std.HashMap UInt64 Rune) :
    (∃ runes, collect byIndex 0 byIndex.size = .ok runes) ↔ Contiguous byIndex := by
  constructor
  · rintro ⟨runes, hrunes⟩
    refine ⟨byIndex.size, fun k => ⟨?_, fun hk => ?_⟩⟩
    · rintro ⟨i, hi, rfl⟩
      exact index_lt_of_collect hrunes (size_le byIndex) hi
    · obtain ⟨r, hr, -⟩ := getElem?_of_collect hrunes hk
      rw [Nat.zero_add] at hr
      refine ⟨UInt64.ofNat k, ?_, UInt64.toNat_ofNat_of_lt' (hk.trans_le (size_le byIndex))⟩
      rw [Std.HashMap.mem_iff_isSome_getElem?, hr]
      rfl
  · rintro ⟨n, hn⟩
    have hperm : (byIndex.keys.map UInt64.toNat).Perm (List.range n) := by
      rw [List.perm_ext_iff_of_nodup (nodup_indices byIndex) List.nodup_range]
      intro k
      rw [List.mem_range, ← hn, List.mem_map]
      simp only [Std.HashMap.mem_keys]
    have hsize : byIndex.size = n := by
      have hlength := hperm.length_eq
      rwa [List.length_map, Std.HashMap.length_keys, List.length_range] at hlength
    refine exists_collect fun k hk => ?_
    obtain ⟨i, hi, rfl⟩ := (hn k).mpr (hsize ▸ hk)
    rw [Nat.zero_add, UInt64.ofNat_toNat]
    exact Option.isSome_iff_exists.mp (Std.HashMap.mem_iff_isSome_getElem?.mp hi)

lemma exists_ofRows_iff (rows : RuneRows) :
    (∃ a, ofRows rows = .ok a) ↔ rows.byIndex.isEmpty = false ∧ Contiguous rows.byIndex := by
  rw [← exists_collect_iff, ofRows]
  cases rows.byIndex.isEmpty with
  | true => simp
  | false =>
    cases collect rows.byIndex 0 rows.byIndex.size with
    | error e => simp [Except.map]
    | ok runes => simp [Except.map]

/-! ### Lookups -/

/-- Each lookup finds the last of the rows that it is asked for. Those that are asked for by a
number are there for every number below the size and no other, and those that are asked for by a
character have such a number. -/
structure Finds (a : Alphabet) (rows : List Rune) : Prop where
  size_pos : 0 < a.size
  at?_eq : ∀ i, a.at? i = rows.reverse.find? (·.index.toNat == i)
  isSome_at?_iff : ∀ i, (a.at? i).isSome ↔ i < a.size
  rune?_eq : ∀ c, a.rune? c = rows.reverse.find? (·.symbol == c)
  index_lt : ∀ c r, a.rune? c = some r → r.index.toNat < a.size

/-- What one lookup finds is found by the other one, too. -/
structure Inverse (a : Alphabet) : Prop where
  rune?_of_at? : ∀ i r, a.at? i = some r → a.rune? r.symbol = some r
  at?_of_rune? : ∀ c r, a.rune? c = some r → a.at? r.index.toNat = some r

variable {source : String} {a : Alphabet} {rows : List Rune}

lemma mem_byIndex_ofRunes {i : UInt64} :
    i ∈ (RuneRows.ofRunes rows).byIndex ↔ ∃ r ∈ rows, r.index = i := by
  rw [Std.HashMap.mem_iff_isSome_getElem?, RuneRows.getElem?_byIndex_ofRunes, List.find?_isSome]
  simp only [List.mem_reverse, beq_iff_eq]

lemma contiguous_ofRunes_iff :
    Contiguous (RuneRows.ofRunes rows).byIndex ↔
      ∃ n, ∀ i : ℕ, (∃ r ∈ rows, r.index.toNat = i) ↔ i < n := by
  simp only [Contiguous, mem_byIndex_ofRunes, exists_exists_and_eq_and]

lemma isEmpty_ofRunes_iff : (RuneRows.ofRunes rows).byIndex.isEmpty = false ↔ rows ≠ [] := by
  rw [Std.HashMap.isEmpty_eq_false_iff_exists_mem]
  simp only [mem_byIndex_ofRunes]
  constructor
  · rintro ⟨i, r, hr, -⟩ rfl
    exact List.not_mem_nil hr
  · intro hne
    exact ⟨_, rows.head hne, List.head_mem hne, rfl⟩

lemma size_le_of_ofRows {held : RuneRows} (h : ofRows held = .ok a) : a.size ≤ 2 ^ 64 := by
  obtain ⟨-, runes, hcollect, rfl⟩ := exists_of_ofRows h
  rw [size, List.size_toArray, length_of_collect hcollect]
  exact size_le held.byIndex

/-- The rune under a number is that of the last row of this index, and there is one for every
number below the size only. -/
lemma getElem?_collect_ofRunes {runes : List Rune}
    (h : collect (RuneRows.ofRunes rows).byIndex 0 (RuneRows.ofRunes rows).byIndex.size =
      .ok runes) (i : ℕ) : runes[i]? = rows.reverse.find? (·.index.toNat == i) := by
  rcases Nat.lt_or_ge i (RuneRows.ofRunes rows).byIndex.size with hi | hi
  · obtain ⟨r, hrow, hfound⟩ := getElem?_of_collect h hi
    have hword : (UInt64.ofNat i).toNat = i :=
      UInt64.toNat_ofNat_of_lt' (hi.trans_le (size_le _))
    have hkeys : (fun r : Rune => r.index.toNat == i) = fun r => r.index == UInt64.ofNat i := by
      funext r
      rw [Bool.eq_iff_iff, beq_iff_eq, beq_iff_eq, ← UInt64.toNat_inj, hword]
    rw [Nat.zero_add, RuneRows.getElem?_byIndex_ofRunes] at hrow
    rw [hfound, hkeys, hrow]
  · have hnone : rows.reverse.find? (·.index.toNat == i) = none := by
      rw [List.find?_eq_none]
      intro r hr
      have hlt := index_lt_of_collect h (size_le _)
        (mem_byIndex_ofRunes.mpr ⟨r, List.mem_reverse.mp hr, rfl⟩)
      rw [beq_iff_eq]
      omega
    rw [hnone, List.getElem?_eq_none_iff, length_of_collect h]
    exact hi

lemma finds_of_ofRows (h : ofRows (.ofRunes rows) = .ok a) : a.Finds rows := by
  have hpos := size_pos_of_ofRows h
  obtain ⟨-, runes, hcollect, rfl⟩ := exists_of_ofRows h
  refine ⟨hpos, fun i => ?_, fun i => ?_, RuneRows.getElem?_bySymbol_ofRunes rows, fun c r hr => ?_⟩
  · rw [at?, List.getElem?_toArray]
    exact getElem?_collect_ofRunes hcollect i
  · simp [at?, size]
  · have hfind := (RuneRows.getElem?_bySymbol_ofRunes rows c).symm.trans hr
    have hmem : r ∈ rows := List.mem_reverse.mp (List.mem_of_find?_eq_some hfind)
    rw [size, List.size_toArray, length_of_collect hcollect]
    exact index_lt_of_collect hcollect (size_le _) (mem_byIndex_ofRunes.mpr ⟨r, hmem, rfl⟩)

lemma inverse_of_oneToOne (h : a.OneToOne) : a.Inverse where
  rune?_of_at? i r hr := (h.rune?_iff _ r).mpr ⟨((h.at?_iff i r).mp hr).1, rfl⟩
  at?_of_rune? c r hr := (h.at?_iff _ r).mpr ⟨((h.rune?_iff c r).mp hr).1, rfl⟩

/-! ### Tables -/

lemma parse_eq (h : HasRows source rows) :
    parse source = (overriddenBy rows, ofRows (.ofRunes rows)) := by
  have hlines : ((Text.lines source.toList).zipIdx 1).map Prod.fst = Text.lines source.toList :=
    List.zipIdx_map_fst 1 _
  have hrows : RuneRows.empty.addLines ((Text.lines source.toList).zipIdx 1) =
      (overriddenBy rows, .ok (.ofRunes rows)) :=
    RuneRows.addLines_ofRunes [] (by rwa [hlines])
  rw [parse, hrows]
  rfl

lemma exists_error_of_dataLine {line : List Char} (hline : line ∈ dataLines source)
    (hmalformed : ∀ r : Rune, ¬r.WrittenOn line) : ∃ e, (parse source).2 = .error e := by
  obtain ⟨hmem, hdata⟩ := List.mem_filter.mp hline
  rw [← List.zipIdx_map_fst 1 (Text.lines source.toList)] at hmem
  obtain ⟨numbered, hnumbered, rfl⟩ := List.mem_map.mp hmem
  obtain ⟨e, he⟩ := RuneRows.exists_error_of_malformed .empty hnumbered hdata hmalformed
  refine ⟨e, ?_⟩
  rw [parse]
  simp only [he]
  rfl

lemma exists_rows_of_parse (h : (parse source).2 = .ok a) : ∃ rows, HasRows source rows := by
  rcases exists_rows_or_malformed (dataLines source) with hrows | ⟨line, hline, hmalformed⟩
  · exact hrows
  · obtain ⟨e, he⟩ := exists_error_of_dataLine hline hmalformed
    cases h.symm.trans he

/-- Rows are accepted when there are some and their indices are the numbers up to a bound. -/
lemma exists_parse_iff (h : HasRows source rows) :
    (∃ a, (parse source).2 = .ok a) ↔
      rows ≠ [] ∧ ∃ n, ∀ i : ℕ, (∃ r ∈ rows, r.index.toNat = i) ↔ i < n := by
  rw [parse_eq h, exists_ofRows_iff, isEmpty_ofRunes_iff, contiguous_ofRunes_iff]

/-- Rows are refused when there are none or their indices are not the numbers up to a bound. -/
lemma exists_error_iff (h : HasRows source rows) :
    (∃ e, (parse source).2 = .error e) ↔
      rows = [] ∨ ¬∃ n, ∀ i : ℕ, (∃ r ∈ rows, r.index.toNat = i) ↔ i < n := by
  rw [← not_ne_iff, ← not_and_or, ← exists_parse_iff h]
  cases (parse source).2 <;> simp

/-- **Lookups find the last row there is.** An accepted table has rows whose lookups they are, and
reports what each row overrides; where nothing is overridden the lookups are inverse to each other.
A table is refused when a line is malformed, when there is no row, or when the indices are not the
numbers up to a bound. -/
theorem lookups_of_parse (source : String) :
    (∀ a, (parse source).2 = .ok a →
      ∃ rows, HasRows source rows ∧ a.Finds rows ∧ (parse source).1 = overriddenBy rows ∧
        ((parse source).1 = [] → a.Inverse)) ∧
    ((∃ e, (parse source).2 = .error e) ↔
      (∃ line ∈ dataLines source, ∀ r : Rune, ¬r.WrittenOn line) ∨
        ∃ rows, HasRows source rows ∧
          (rows = [] ∨ ¬∃ n, ∀ i : ℕ, (∃ r ∈ rows, r.index.toNat = i) ↔ i < n)) := by
  constructor
  · intro a h
    obtain ⟨rows, hrows⟩ := exists_rows_of_parse h
    have heq := parse_eq hrows
    have hrowsOf : ofRows (.ofRunes rows) = .ok a := by
      rw [← h, heq]
    refine ⟨rows, hrows, finds_of_ofRows hrowsOf, by rw [heq], fun hnone => ?_⟩
    exact inverse_of_oneToOne (oneToOne_of_parse (Prod.ext hnone h) (size_le_of_ofRows hrowsOf))
  · constructor
    · intro herror
      rcases exists_rows_or_malformed (dataLines source) with ⟨rows, hrows⟩ | hmalformed
      · exact .inr ⟨rows, hrows, (exists_error_iff hrows).mp herror⟩
      · exact .inl hmalformed
    · rintro (⟨line, hline, hmalformed⟩ | ⟨rows, hrows, hrefused⟩)
      · exact exists_error_of_dataLine hline hmalformed
      · exact (exists_error_iff hrows).mpr hrefused

/-! ### A rune that takes another index -/

/-- The third row overrides the first one by its character and the second one by its index. -/
def takenRows : List Rune := [⟨'A', 0, 2, "A"⟩, ⟨'B', 1, 3, "B"⟩, ⟨'A', 1, 5, "A"⟩]

def takenTable : String := "A 0 2 A\nB 1 3 B\nA 1 5 A\n"

lemma hasRows_takenTable : HasRows takenTable takenRows := by
  have hlines : dataLines takenTable =
      ["A 0 2 A".toList, "B 1 3 B".toList, "A 1 5 A".toList] := by decide +kernel
  have hread {line : List Char} {r : Rune} (h : Rune.ofLine 1 line = .ok r) :
      r.WrittenOn line := Rune.ofLine_eq_ok_iff.mp h
  rw [HasRows, hlines]
  exact .cons (hread rfl) (.cons (hread rfl) (.cons (hread rfl) .nil))

/-- Both overridden rows are still found, each by the lookup that it is not overridden in. -/
theorem lookups_of_parse_taken :
    ∃ a, (parse takenTable).2 = .ok a ∧
      a.at? 0 = some ⟨'A', 0, 2, "A"⟩ ∧ a.at? 1 = some ⟨'A', 1, 5, "A"⟩ ∧
      a.rune? 'A' = some ⟨'A', 1, 5, "A"⟩ ∧ a.rune? 'B' = some ⟨'B', 1, 3, "B"⟩ ∧
      (parse takenTable).1 = [.symbol 'A' 0 1, .index 1 'B' 'A'] := by
  have hindices : ∃ n, ∀ i : ℕ, (∃ r ∈ takenRows, r.index.toNat = i) ↔ i < n := by
    refine ⟨2, fun i => ?_⟩
    simp only [takenRows, List.mem_cons, List.not_mem_nil, or_false, exists_eq_or_imp,
      exists_eq_left, UInt64.toNat_zero, UInt64.reduceToNat, or_self]
    omega
  obtain ⟨a, ha⟩ := (exists_parse_iff hasRows_takenTable).mpr ⟨nofun, hindices⟩
  obtain ⟨rows, hrows, hfinds, hreported, -⟩ := (lookups_of_parse takenTable).1 a ha
  obtain rfl := hrows.unique hasRows_takenTable
  refine ⟨a, ha, ?_, ?_, ?_, ?_, ?_⟩
  · rw [hfinds.at?_eq]; rfl
  · rw [hfinds.at?_eq]; rfl
  · rw [hfinds.rune?_eq]; rfl
  · rw [hfinds.rune?_eq]; rfl
  · rw [hreported]; rfl

end Alphabet

end RuneSolver
