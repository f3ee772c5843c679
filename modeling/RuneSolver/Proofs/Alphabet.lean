import Mathlib.Algebra.Group.Nat.Defs
import Mathlib.Data.List.Perm.Subperm
import RuneSolver.Alphabet
import RuneSolver.Proofs.Table
import RuneSolver.Proofs.Text.Trim

/-!
Alphabets that are read from a table. Their indices are the numbers from zero up to the size, of
which there is at least one. Where no row overrides an earlier one, each rune is found by its
character and by its index.
-/

namespace RuneSolver

/-- The words of a line are the character of the rune, its index, its prime and its plaintext. -/
def Rune.WrittenOn (r : Rune) (line : List Char) : Prop :=
  ∃ index prime, Text.fields line = [[r.symbol], index, prime, r.plaintext.toList] ∧
    Text.readWord index = .ok r.index ∧ Text.readInt32 prime = .ok r.prime

lemma Rune.ofLine_eq_ok_iff {number : ℕ} {line : List Char} {r : Rune} :
    ofLine number line = .ok r ↔ r.WrittenOn line := by
  constructor
  · intro h
    rw [ofLine] at h
    split at h
    case h_2 => cases h
    case h_1 symbol index prime plaintext hfields =>
      split at h
      case h_2 => cases h
      case h_1 c =>
        split at h
        · cases h
        next i hindex =>
        split at h
        · cases h
        next p hprime =>
        cases h
        exact ⟨index, prime, by rw [hfields, String.toList_ofList], hindex, hprime⟩
  · rintro ⟨index, prime, hfields, hindex, hprime⟩
    rw [ofLine, hfields]
    simp only [hindex, hprime, String.ofList_toList]

/-- A rune that is read from a row is written by no blank. -/
lemma Rune.isBlank_symbol_of_ofLine {number : ℕ} {line : List Char} {r : Rune}
    (h : ofLine number line = .ok r) : Text.isBlank r.symbol = false := by
  obtain ⟨index, prime, hfields, -, -⟩ := ofLine_eq_ok_iff.mp h
  have hword : Text.IsWord [r.symbol] := Text.isWord_of_mem_fields (by rw [hfields]; simp)
  exact hword.2 r.symbol (List.mem_singleton_self _)

/-- The rows by character and those by index are filled one apart from the other. -/
lemma RuneRows.foldl_insert (rows : RuneRows) (runes : List Rune) :
    runes.foldl insert rows =
      ⟨runes.foldl (fun table r => table.insert r.symbol r) rows.bySymbol,
        runes.foldl (fun table r => table.insert r.index r) rows.byIndex⟩ := by
  induction runes generalizing rows with
  | nil => rfl
  | cons rune runes ih => exact ih (rows.insert rune)

/-- The rows of runes that are read one after the other. -/
def RuneRows.ofRunes (runes : List Rune) : RuneRows := runes.foldl insert empty

lemma RuneRows.getElem?_bySymbol_ofRunes (runes : List Rune) (c : Char) :
    (ofRunes runes).bySymbol[c]? = runes.reverse.find? (·.symbol == c) := by
  have hlast := getElem?_foldl_insert Rune.symbol id empty.bySymbol runes c
  rw [empty, Std.HashMap.getElem?_empty, Option.or_none, Option.map_id] at hlast
  rw [ofRunes, foldl_insert]
  exact hlast

lemma RuneRows.getElem?_byIndex_ofRunes (runes : List Rune) (i : UInt64) :
    (ofRunes runes).byIndex[i]? = runes.reverse.find? (·.index == i) := by
  have hlast := getElem?_foldl_insert Rune.index id empty.byIndex runes i
  rw [empty, Std.HashMap.getElem?_empty, Option.or_none, Option.map_id] at hlast
  rw [ofRunes, foldl_insert]
  exact hlast

/-- A table that holds runes under their keys holds one more under a key that is not taken. -/
lemma getElem?_insert_eq_some_iff {κ : Type} [BEq κ] [LawfulBEq κ] [Hashable κ]
    {table : Std.HashMap κ Rune} {key : Rune → κ} {runes : List Rune} {r : Rune}
    (h : ∀ k q, table[k]? = some q ↔ q ∈ runes ∧ key q = k) (hnew : table[key r]? = none) (k : κ)
    (q : Rune) : (table.insert (key r) r)[k]? = some q ↔ q ∈ r :: runes ∧ key q = k := by
  rw [Std.HashMap.getElem?_insert, List.mem_cons]
  by_cases hk : key r = k
  · have hfree : ¬(q ∈ runes ∧ key q = k) := by
      rw [← h, ← hk, hnew]
      nofun
    rw [if_pos (beq_iff_eq.mpr hk), Option.some.injEq]
    constructor
    · rintro rfl
      exact ⟨.inl rfl, hk⟩
    · rintro ⟨rfl | hq, hqk⟩
      · rfl
      · exact absurd ⟨hq, hqk⟩ hfree
  · rw [if_neg (by simpa using hk), h]
    constructor
    · exact fun hq => ⟨.inr hq.1, hq.2⟩
    · rintro ⟨rfl | hq, hqk⟩
      · exact absurd hqk hk
      · exact ⟨hq, hqk⟩

/-- The rows are those of some runes, each under its character and under its index. -/
structure RuneRows.Hold (rows : RuneRows) (runes : List Rune) : Prop where
  bySymbol : ∀ c r, rows.bySymbol[c]? = some r ↔ r ∈ runes ∧ r.symbol = c
  byIndex : ∀ i r, rows.byIndex[i]? = some r ↔ r ∈ runes ∧ r.index = i
  noBlank : ∀ r ∈ runes, Text.isBlank r.symbol = false

namespace RuneRows

variable {rows last : RuneRows} {runes : List Rune} {r : Rune}

lemma hold_empty : empty.Hold [] :=
  ⟨fun c r => by simp [empty], fun i r => by simp [empty], nofun⟩

/-- A row that overrides nothing is one rune more. -/
lemma Hold.insert (h : rows.Hold runes) (hnew : rows.overridden r = [])
    (hr : Text.isBlank r.symbol = false) : (rows.insert r).Hold (r :: runes) := by
  obtain ⟨hsymbol, hindex⟩ := List.append_eq_nil_iff.mp hnew
  rw [Option.toList_eq_nil_iff, Option.map_eq_none_iff] at hsymbol hindex
  exact ⟨getElem?_insert_eq_some_iff h.bySymbol hsymbol,
    getElem?_insert_eq_some_iff h.byIndex hindex, List.forall_mem_cons.mpr ⟨hr, h.noBlank⟩⟩

/-- The row of a line that overrides nothing. -/
lemma addLines_cons_of_new {line : List Char} {number : ℕ} {lines : List (List Char × ℕ)}
    (hdata : carriesData line = true) (hline : Rune.ofLine number line = .ok r)
    (hnew : rows.overridden r = []) :
    rows.addLines ((line, number) :: lines) = (rows.insert r).addLines lines := by
  rw [addLines, if_pos hdata, hline]
  simp only [hnew, List.nil_append]

/-- Lines of which none overrides anything. -/
lemma Hold.addLines {lines : List (List Char × ℕ)} (h : rows.Hold runes)
    (hlines : rows.addLines lines = ([], .ok last)) : ∃ all, last.Hold all := by
  induction lines generalizing rows runes with
  | nil =>
    cases hlines
    exact ⟨runes, h⟩
  | cons line lines ih =>
    rw [RuneRows.addLines] at hlines
    split at hlines
    · cases hline : Rune.ofLine line.2 line.1 with
      | error e => rw [hline] at hlines; cases hlines
      | ok r =>
        rw [hline] at hlines
        obtain ⟨hnone, hresult⟩ := Prod.mk.inj hlines
        obtain ⟨hnew, hlater⟩ := List.append_eq_nil_iff.mp hnone
        exact ih (h.insert hnew (Rune.isBlank_symbol_of_ofLine hline)) (Prod.ext hlater hresult)
    · exact ih h hlines

end RuneRows

namespace Alphabet

lemma exists_of_collect_succ {byIndex : Std.HashMap UInt64 Rune} {index left : ℕ}
    {runes : List Rune} (h : collect byIndex index (left + 1) = .ok runes) :
    ∃ r rest, byIndex[UInt64.ofNat index]? = some r ∧
      collect byIndex (index + 1) left = .ok rest ∧ runes = r :: rest := by
  rw [collect] at h
  cases hget : byIndex[UInt64.ofNat index]? with
  | none => rw [hget] at h; cases h
  | some r =>
    rw [hget] at h
    cases hrest : collect byIndex (index + 1) left with
    | error e => simp only [hrest] at h; cases h
    | ok rest =>
      simp only [hrest] at h
      cases h
      exact ⟨r, rest, rfl, rfl, rfl⟩

lemma length_of_collect {byIndex : Std.HashMap UInt64 Rune} {index left : ℕ} {runes : List Rune}
    (h : collect byIndex index left = .ok runes) : runes.length = left := by
  induction left generalizing index runes with
  | zero =>
    cases h
    rfl
  | succ left ih =>
    obtain ⟨r, rest, -, hrest, rfl⟩ := exists_of_collect_succ h
    rw [List.length_cons, ih hrest]

/-- An accepted table holds the rows of all indices, of which there is one at least. -/
lemma exists_of_ofRows {rows : RuneRows} {a : Alphabet} (h : ofRows rows = .ok a) :
    0 < rows.byIndex.size ∧ ∃ runes, collect rows.byIndex 0 rows.byIndex.size = .ok runes ∧
      a = ⟨rows.bySymbol, runes.toArray⟩ := by
  rw [ofRows] at h
  split at h
  · cases h
  · next hempty =>
    rw [Std.HashMap.isEmpty_eq_size_eq_zero, beq_iff_eq] at hempty
    cases hcollect : collect rows.byIndex 0 rows.byIndex.size with
    | error e => rw [hcollect] at h; cases h
    | ok runes =>
      rw [hcollect] at h
      cases h
      exact ⟨Nat.pos_of_ne_zero hempty, runes, rfl, rfl⟩

lemma size_pos_of_ofRows {rows : RuneRows} {a : Alphabet} (h : ofRows rows = .ok a) :
    0 < a.size := by
  obtain ⟨hpos, runes, hcollect, rfl⟩ := exists_of_ofRows h
  rw [size, List.size_toArray, length_of_collect hcollect]
  exact hpos

/-- A table that is accepted has a rune of index zero. -/
lemma exists_first_of_parse {source : String} {a : Alphabet} (h : (parse source).2 = .ok a) :
    0 < a.size ∧ ∃ first, a.at? 0 = some first := by
  have hpos : 0 < a.size := by
    rw [parse] at h
    rcases hrows : RuneRows.empty.addLines ((Text.lines source.toList).zipIdx 1) with ⟨_, _ | rows⟩
    · simp only [hrows] at h
      cases h
    · simp only [hrows] at h
      exact size_pos_of_ofRows h
  exact ⟨hpos, _, Array.getElem?_eq_getElem hpos⟩

/-! ### Tables without duplicates -/

lemma getElem?_of_collect {byIndex : Std.HashMap UInt64 Rune} {index left : ℕ} {runes : List Rune}
    (h : collect byIndex index left = .ok runes) {k : ℕ} (hk : k < left) :
    ∃ r, byIndex[UInt64.ofNat (index + k)]? = some r ∧ runes[k]? = some r := by
  induction left generalizing index runes k with
  | zero => omega
  | succ left ih =>
    obtain ⟨r, rest, hget, hrest, rfl⟩ := exists_of_collect_succ h
    cases k with
    | zero => exact ⟨r, hget, rfl⟩
    | succ k =>
      obtain ⟨q, hq, hrestk⟩ := ih hrest (k := k) (by omega)
      rw [show index + 1 + k = index + (k + 1) by omega] at hq
      exact ⟨q, hq, hrestk⟩

/-- As there are as many indices as rows, there is no index but the numbers up to their count. -/
lemma index_lt_of_collect {byIndex : Std.HashMap UInt64 Rune} {runes : List Rune}
    (h : collect byIndex 0 byIndex.size = .ok runes) (hsize : byIndex.size ≤ 2 ^ 64) {i : UInt64}
    (hi : i ∈ byIndex) : i.toNat < byIndex.size := by
  let indices := byIndex.keys.map UInt64.toNat
  have hsubset : List.range byIndex.size ⊆ indices := by
    intro n hn
    obtain ⟨r, hr, -⟩ := getElem?_of_collect h (List.mem_range.mp hn)
    rw [Nat.zero_add] at hr
    refine List.mem_map.mpr ⟨UInt64.ofNat n, ?_, ?_⟩
    · rw [Std.HashMap.mem_keys, Std.HashMap.mem_iff_isSome_getElem?, hr]
      rfl
    · exact UInt64.toNat_ofNat_of_lt' (Nat.lt_of_lt_of_le (List.mem_range.mp hn) hsize)
  have hlength : indices.length ≤ (List.range byIndex.size).length := by
    rw [List.length_map, Std.HashMap.length_keys, List.length_range]
  have hperm := (List.nodup_range.subperm hsubset).perm_of_length_le hlength
  have hmem : i.toNat ∈ indices := List.mem_map_of_mem (Std.HashMap.mem_keys.mpr hi)
  exact List.mem_range.mp (hperm.mem_iff.mpr hmem)

/-- The rune under a number is the one of the row of this index. -/
lemma getElem?_eq_some_iff_of_collect {rows : RuneRows} {runes found : List Rune}
    (h : rows.Hold runes) (hcollect : collect rows.byIndex 0 rows.byIndex.size = .ok found)
    (hsize : rows.byIndex.size ≤ 2 ^ 64) (i : ℕ) (r : Rune) :
    found[i]? = some r ↔ r ∈ runes ∧ r.index.toNat = i := by
  have hat {k : ℕ} (hk : k < rows.byIndex.size) {q : Rune} :
      found[k]? = some q ↔ q ∈ runes ∧ q.index = UInt64.ofNat k := by
    obtain ⟨found, hrow, hfound⟩ := getElem?_of_collect hcollect hk
    rw [Nat.zero_add] at hrow
    rw [← h.byIndex, hrow, hfound]
  constructor
  · intro hi
    have hlt : i < rows.byIndex.size := by
      rw [← length_of_collect hcollect]
      exact (List.getElem?_eq_some_iff.mp hi).1
    obtain ⟨hmem, hindex⟩ := (hat hlt).mp hi
    rw [hindex]
    exact ⟨hmem, UInt64.toNat_ofNat_of_lt' (Nat.lt_of_lt_of_le hlt hsize)⟩
  · rintro ⟨hmem, rfl⟩
    have hrow : rows.byIndex[r.index]? = some r := (h.byIndex r.index r).mpr ⟨hmem, rfl⟩
    have hkey : r.index ∈ rows.byIndex := by
      rw [Std.HashMap.mem_iff_isSome_getElem?, hrow]
      rfl
    exact (hat (index_lt_of_collect hcollect hsize hkey)).mpr ⟨hmem, UInt64.ofNat_toNat.symm⟩

/-- Each rune of the table is found by its character and by its index, and nothing else is. -/
structure OneToOne (a : Alphabet) : Prop where
  rune?_iff : ∀ c r, a.rune? c = some r ↔ r ∈ a.runes ∧ r.symbol = c
  at?_iff : ∀ i r, a.at? i = some r ↔ r ∈ a.runes ∧ r.index.toNat = i
  noBlank : ∀ r ∈ a.runes, Text.isBlank r.symbol = false

lemma OneToOne.index_lt {a : Alphabet} (h : a.OneToOne) {r : Rune} (hr : r ∈ a.runes) :
    r.index.toNat < a.size := by
  have hat : a.at? r.index.toNat = some r := (h.at?_iff _ r).mpr ⟨hr, rfl⟩
  exact (Array.getElem?_eq_some_iff.mp hat).1

lemma oneToOne_of_ofRows {rows : RuneRows} {runes : List Rune} {a : Alphabet}
    (hold : rows.Hold runes) (h : ofRows rows = .ok a) (hsize : a.size ≤ 2 ^ 64) :
    a.OneToOne := by
  obtain ⟨-, found, hcollect, rfl⟩ := exists_of_ofRows h
  have hlength : rows.byIndex.size = found.length := (length_of_collect hcollect).symm
  have hat := getElem?_eq_some_iff_of_collect hold hcollect (hlength ▸ hsize)
  have hmem (r : Rune) : r ∈ found.toArray ↔ r ∈ runes := by
    rw [List.mem_toArray, List.mem_iff_getElem?]
    constructor
    · rintro ⟨i, hi⟩
      exact ((hat i r).mp hi).1
    · exact fun hr => ⟨_, (hat _ r).mpr ⟨hr, rfl⟩⟩
  refine ⟨fun c r => ?_, fun i r => ?_, fun r hr => hold.noBlank r ((hmem r).mp hr)⟩
  · rw [hmem]
    exact hold.bySymbol c r
  · rw [hmem, at?, List.getElem?_toArray]
    exact hat i r

/-- **A table in which no row overrides another is one-to-one.** -/
theorem oneToOne_of_parse {source : String} {a : Alphabet} (h : parse source = ([], .ok a))
    (hsize : a.size ≤ 2 ^ 64) : a.OneToOne := by
  rw [parse] at h
  cases hlines : RuneRows.empty.addLines ((Text.lines source.toList).zipIdx 1) with
  | mk overridden result =>
    rw [hlines] at h
    obtain ⟨rfl, hrows⟩ := Prod.mk.inj h
    cases result with
    | error e => cases hrows
    | ok rows =>
      obtain ⟨runes, hold⟩ := RuneRows.hold_empty.addLines hlines
      exact oneToOne_of_ofRows hold hrows hsize

/-! ### An alphabet of three runes -/

/-- Runes that stand for themselves. -/
def sampleRunes : List Rune := [⟨'A', 0, 2, "A"⟩, ⟨'B', 1, 3, "B"⟩, ⟨'C', 2, 5, "C"⟩]

def sampleRows : RuneRows := sampleRunes.foldl RuneRows.insert RuneRows.empty

def sample : Alphabet := ⟨sampleRows.bySymbol, sampleRunes.toArray⟩

def sampleTable : String := "A 0 2 A\nB 1 3 B\nC 2 5 C\n"

lemma ofRows_sampleRows : ofRows sampleRows = .ok sample := by
  have hcollect : collect sampleRows.byIndex 0 3 = .ok sampleRunes := by
    simp [collect, sampleRows, sampleRunes, RuneRows.insert, RuneRows.empty, Except.map,
      Std.HashMap.getElem_insert]
  have hempty : sampleRows.byIndex.isEmpty = false := by
    simp [sampleRows, sampleRunes, RuneRows.insert, RuneRows.empty]
  have hsize : sampleRows.byIndex.size = 3 := by
    simp [sampleRows, sampleRunes, RuneRows.insert, RuneRows.empty, Std.HashMap.size_insert]
  rw [ofRows, hempty, hsize, hcollect]
  rfl

lemma parse_sampleTable : (parse sampleTable).2 = .ok sample := by
  have hrows : (RuneRows.empty.addLines ((Text.lines sampleTable.toList).zipIdx 1)).2 =
      .ok sampleRows := rfl
  rw [parse]
  simp only
  rw [hrows]
  exact ofRows_sampleRows

lemma overridden_sampleTable : (parse sampleTable).1 = [] := by
  have hlines : (Text.lines sampleTable.toList).zipIdx 1 =
      [("A 0 2 A".toList, 1), ("B 1 3 B".toList, 2), ("C 2 5 C".toList, 3)] := rfl
  have hnew : RuneRows.empty.overridden ⟨'A', 0, 2, "A"⟩ = [] ∧
      (RuneRows.empty.insert ⟨'A', 0, 2, "A"⟩).overridden ⟨'B', 1, 3, "B"⟩ = [] ∧
      ((RuneRows.empty.insert ⟨'A', 0, 2, "A"⟩).insert ⟨'B', 1, 3, "B"⟩).overridden
        ⟨'C', 2, 5, "C"⟩ = [] := by
    simp [RuneRows.overridden, RuneRows.empty, RuneRows.insert]
  rw [parse, hlines]
  simp only
  rw [RuneRows.addLines_cons_of_new rfl rfl hnew.1, RuneRows.addLines_cons_of_new rfl rfl hnew.2.1,
    RuneRows.addLines_cons_of_new rfl rfl hnew.2.2]
  rfl

lemma rune?_sample (c : Char) : sample.rune? c = sampleRunes.reverse.find? (·.symbol == c) := by
  exact RuneRows.getElem?_bySymbol_ofRunes sampleRunes c

end Alphabet

end RuneSolver
