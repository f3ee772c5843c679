import Mathlib.Algebra.BigOperators.Group.Finset.Basic
import Mathlib.Data.List.Forall2
import RuneSolver.Language.Model
import RuneSolver.Proofs.Table
import RuneSolver.Proofs.Text.Numeral
import RuneSolver.Proofs.Word

/-!
Tables of frequencies. Main statement: a table is accepted when its n-grams have a width, each of
its lines holds one of this width with a frequency, and the frequencies have a positive sum that is
a word; then it has a score for each of its n-grams and no others, by the share of the last
frequency in the exact sum. At a sum that is no word, reading stops.
-/

namespace RuneSolver.Language

/-! ### Entries -/

/-- A line holds an n-gram of the width up to the first separator, and behind it, up to the next
one if there is any, the numeral of its frequency, with blanks around it or none. -/
def HoldsEntry (width : ℕ) (separator : Char) (line : List Char) (entry : String × UInt64) :
    Prop :=
  ∃ frequency rest, line.splitOn separator = entry.1.toList :: frequency :: rest ∧
    entry.1.toList.length = width ∧ Text.IsNumeral (Text.trim frequency) entry.2.toNat

/-- The lines of a table that are not blank. -/
def entryLines (source : String) : List (List Char) :=
  (Text.lines source.toList).filter (!Text.isBlankLine ·)

/-- Each line of a table that is not blank holds an entry, and these are the entries in order. -/
def HasEntries (width : ℕ) (separator : Char) (source : String)
    (entries : List (String × UInt64)) : Prop :=
  List.Forall₂ (HoldsEntry width separator) (entryLines source) entries

/-- The last frequency of an n-gram among some entries. -/
def last? (entries : List (String × UInt64)) (ngram : String) : Option UInt64 :=
  (entries.reverse.find? (·.1 == ngram)).map Prod.snd

/-- The different n-grams of some entries. -/
def ngrams (entries : List (String × UInt64)) : Finset String := (entries.map Prod.fst).toFinset

/-- The sum over the different n-grams of their last frequencies. -/
def exactMass (entries : List (String × UInt64)) : ℕ :=
  ∑ ngram ∈ ngrams entries, ((last? entries ngram).getD 0).toNat

variable {width : ℕ} {separator : Char} {source : String}
  {entries entries' : List (String × UInt64)}

lemma Counts.entry_eq_ok_iff {number : ℕ} {line : List Char} {e : String × UInt64} :
    entry width separator number line = .ok e ↔ HoldsEntry width separator line e := by
  constructor
  · intro h
    rw [entry] at h
    split at h
    case h_2 => cases h
    case h_1 ngram frequency rest hsplit =>
      split at h
      case isFalse => cases h
      case isTrue hwidth =>
        split at h
        case h_2 => cases h
        case h_1 count hcount =>
          cases h
          exact ⟨frequency, rest, by rw [hsplit, String.toList_ofList], by
            rwa [String.toList_ofList], Text.readWord_eq_ok_iff.mp hcount⟩
  · rintro ⟨frequency, rest, hsplit, hwidth, hcount⟩
    rw [entry, hsplit]
    simp only [if_pos hwidth, Text.readWord_eq_ok_iff.mpr hcount, String.ofList_toList]

lemma HasEntries.unique (h : HasEntries width separator source entries)
    (h' : HasEntries width separator source entries') : entries = entries' := by
  refine List.right_unique_forall₂' (fun line e e' he he' => ?_) h h'
  have hread : Counts.entry width separator 1 line = .ok e := Counts.entry_eq_ok_iff.mpr he
  rw [Counts.entry_eq_ok_iff.mpr he'] at hread
  exact (Except.ok.inj hread).symm

lemma hasEntries_of_lines {lines : List (List Char)} (hlines : entryLines source = lines)
    (hread : List.Forall₂ (fun line e => Counts.entry width separator 1 line = .ok e) lines
      entries) : HasEntries width separator source entries := by
  rw [HasEntries, hlines]
  exact hread.imp fun _ _ => Counts.entry_eq_ok_iff.mp

/-! ### Counts -/

namespace Counts

/-- The counts of entries that are read one after the other. -/
def ofEntries (entries : List (String × UInt64)) : Counts :=
  entries.foldl (fun counts e => counts.insert e.1 e.2) ∅

lemma getElem?_ofEntries (entries : List (String × UInt64)) (ngram : String) :
    (ofEntries entries)[ngram]? = last? entries ngram := by
  rw [ofEntries, getElem?_foldl_insert Prod.fst Prod.snd, Std.HashMap.getElem?_empty,
    Option.or_none]
  rfl

lemma isSome_last?_iff {ngram : String} :
    (last? entries ngram).isSome ↔ ngram ∈ ngrams entries := by
  simp [last?, ngrams]

lemma keys_ofEntries (entries : List (String × UInt64)) :
    (ofEntries entries).keys.toFinset = ngrams entries := by
  ext ngram
  rw [List.mem_toFinset, Std.HashMap.mem_keys, Std.HashMap.mem_iff_isSome_getElem?,
    getElem?_ofEntries, isSome_last?_iff]

/-- The counts hold as many n-grams as there are different ones. -/
lemma size_ofEntries (entries : List (String × UInt64)) :
    (ofEntries entries).size = (ngrams entries).card := by
  rw [← keys_ofEntries, List.toFinset_card_of_nodup Std.HashMap.nodup_keys,
    Std.HashMap.length_keys]

lemma sum_ofEntries (entries : List (String × UInt64)) :
    (((ofEntries entries).toList.map Prod.snd).map UInt64.toNat).sum = exactMass entries := by
  rw [sum_map_snd_toList, keys_ofEntries]
  simp only [getElem?_ofEntries]
  rfl

/-- The mass of the counts is the exact sum, if that is a word. -/
lemma mass?_eq_some_iff {total : UInt64} :
    (ofEntries entries).mass? = some total ↔ total.toNat = exactMass entries := by
  rw [mass?, Word.sum?_eq_some_iff, sum_ofEntries]

lemma mass?_eq_none_iff : (ofEntries entries).mass? = none ↔ 2 ^ 64 ≤ exactMass entries := by
  rw [mass?, Word.sum?_eq_none_iff, sum_ofEntries]

lemma readsRows_addLines (width : ℕ) (separator : Char) :
    ReadsRows (addLines width separator) (!Text.isBlankLine ·) (entry width separator)
      fun counts e => counts.insert e.1 e.2 where
  nil _ := rfl
  cons counts line lines := by
    rw [addLines]
    cases Text.isBlankLine line.1 with
    | true => rfl
    | false => cases entry width separator line.2 line.1 <;> rfl

lemma addLines_source_iff {last : Counts} :
    addLines width separator ∅ ((Text.lines source.toList).zipIdx 1) = .ok last ↔
      ∃ entries, HasEntries width separator source entries ∧ ofEntries entries = last := by
  rw [(readsRows_addLines width separator).eq_ok_iff entry_eq_ok_iff, List.zipIdx_map_fst]
  rfl

end Counts

/-! ### Tables -/

namespace Frequencies

/-- A table comes to what its entries come to. -/
lemma parse_of_hasEntries (hwidth : 0 < width)
    (hentries : HasEntries width separator source entries) :
    parse source width separator = ofCounts width (.ofEntries entries) := by
  rw [parse, if_neg (by omega)]
  simp only [Counts.addLines_source_iff.mpr ⟨entries, hentries, rfl⟩]

/-- A table that is not refused has a width and entries. -/
lemma exists_entries_of_parse
    (h : ∀ e, parse source width separator ≠ .error (.failure e)) :
    0 < width ∧ ∃ entries, HasEntries width separator source entries := by
  rw [parse] at h
  split at h
  case isTrue => exact absurd rfl (h _)
  case isFalse hwidth =>
    cases hlines : Counts.addLines width separator ∅ ((Text.lines source.toList).zipIdx 1) with
    | error e =>
      rw [hlines] at h
      exact absurd rfl (h e)
    | ok counts =>
      obtain ⟨entries, hentries, -⟩ := Counts.addLines_source_iff.mp hlines
      exact ⟨by omega, entries, hentries⟩

/-- Entries are accepted with the exact sum. -/
lemma ofCounts_eq_ok_iff {f : Frequencies} :
    ofCounts width (.ofEntries entries) = .ok f ↔
      ∃ total, total.toNat = exactMass entries ∧ total ≠ 0 ∧
        f = ⟨width, .ofEntries entries, total⟩ := by
  simp only [← Counts.mass?_eq_some_iff]
  rw [ofCounts]
  cases (Counts.ofEntries entries).mass? with
  | none => exact iff_of_false nofun nofun
  | some total =>
    by_cases hzero : total = 0
    · simp [hzero]
    · simp [hzero, eq_comm]

lemma ofCounts_eq_overflow_iff :
    ofCounts width (.ofEntries entries) = .error .overflow ↔ 2 ^ 64 ≤ exactMass entries := by
  rw [← Counts.mass?_eq_none_iff, ofCounts]
  cases (Counts.ofEntries entries).mass? with
  | none => simp
  | some total => by_cases hzero : total = 0 <;> simp [hzero]

/-- Tables are accepted with the entries that they hold and the exact sum. -/
lemma parse_eq_ok_iff {f : Frequencies} :
    parse source width separator = .ok f ↔
      0 < width ∧ ∃ entries total, HasEntries width separator source entries ∧
        total.toNat = exactMass entries ∧ total ≠ 0 ∧ f = ⟨width, .ofEntries entries, total⟩ := by
  constructor
  · intro h
    obtain ⟨hwidth, entries, hentries⟩ := exists_entries_of_parse (by rw [h]; exact nofun)
    rw [parse_of_hasEntries hwidth hentries, ofCounts_eq_ok_iff] at h
    obtain ⟨total, htotal⟩ := h
    exact ⟨hwidth, entries, total, hentries, htotal⟩
  · rintro ⟨hwidth, entries, total, hentries, htotal⟩
    rw [parse_of_hasEntries hwidth hentries, ofCounts_eq_ok_iff]
    exact ⟨total, htotal⟩

/-- Reading stops where the exact sum is no word. -/
lemma parse_eq_overflow_iff :
    parse source width separator = .error .overflow ↔
      0 < width ∧ ∃ entries, HasEntries width separator source entries ∧
        2 ^ 64 ≤ exactMass entries := by
  constructor
  · intro h
    obtain ⟨hwidth, entries, hentries⟩ := exists_entries_of_parse (by rw [h]; exact nofun)
    rw [parse_of_hasEntries hwidth hentries, ofCounts_eq_overflow_iff] at h
    exact ⟨hwidth, entries, hentries, h⟩
  · rintro ⟨hwidth, entries, hentries, hleaves⟩
    rw [parse_of_hasEntries hwidth hentries, ofCounts_eq_overflow_iff]
    exact hleaves

end Frequencies

namespace Model

/-- The scores are those of some entries: one for each of their n-grams, by the share of its last
frequency in a sum, and one for all others. -/
structure ScoresBy (m : Model) (width : ℕ) (entries : List (String × UInt64)) (sum : UInt64) :
    Prop where
  width_eq : m.width = width
  size_eq : m.size = (ngrams entries).card
  unseen_eq : m.unseen = logUnseen sum
  getElem?_eq : ∀ ngram, m.scores[ngram]? = (last? entries ngram).map (logShare · sum)

lemma scoresBy_ofFrequencies (width : ℕ) (entries : List (String × UInt64)) (total : UInt64) :
    (ofFrequencies ⟨width, .ofEntries entries, total⟩).ScoresBy width entries total where
  width_eq := rfl
  size_eq := by rw [size, ofFrequencies, Std.HashMap.size_map, Counts.size_ofEntries]
  unseen_eq := rfl
  getElem?_eq ngram := by rw [ofFrequencies, Std.HashMap.getElem?_map, Counts.getElem?_ofEntries]

lemma parse_eq_ok_iff {m : Model} :
    parse source width separator = .ok m ↔
      0 < width ∧ ∃ entries total, HasEntries width separator source entries ∧
        total.toNat = exactMass entries ∧ total ≠ 0 ∧
        m = ofFrequencies ⟨width, .ofEntries entries, total⟩ := by
  have hmodel : parse source width separator = .ok m ↔
      ∃ f, Frequencies.parse source width separator = .ok f ∧ ofFrequencies f = m := by
    rw [parse]
    cases Frequencies.parse source width separator <;> simp [Except.map]
  rw [hmodel]
  constructor
  · rintro ⟨f, hf, rfl⟩
    obtain ⟨hwidth, entries, total, hentries, htotal, hne, rfl⟩ :=
      Frequencies.parse_eq_ok_iff.mp hf
    exact ⟨hwidth, entries, total, hentries, htotal, hne, rfl⟩
  · rintro ⟨hwidth, entries, total, hentries, htotal, hne, rfl⟩
    exact ⟨_, Frequencies.parse_eq_ok_iff.mpr ⟨hwidth, entries, total, hentries, htotal, hne, rfl⟩,
      rfl⟩

lemma parse_eq_overflow_iff :
    parse source width separator = .error .overflow ↔
      0 < width ∧ ∃ entries, HasEntries width separator source entries ∧
        2 ^ 64 ≤ exactMass entries := by
  rw [← Frequencies.parse_eq_overflow_iff, parse]
  cases Frequencies.parse source width separator <;> simp [Except.map]

/-- **A table is accepted for its entries and a positive mass that is a word.** It has a score for
each of its n-grams and no others, by the last frequency and the exact sum of the last frequencies.
At a sum that is no word, reading stops; every other table is refused. -/
theorem parse_iff_exactMass (source : String) (width : ℕ) (separator : Char) :
    ((∃ m, parse source width separator = .ok m) ↔
      0 < width ∧ ∃ entries, HasEntries width separator source entries ∧
        0 < exactMass entries ∧ exactMass entries < 2 ^ 64) ∧
    (parse source width separator = .error .overflow ↔
      0 < width ∧ ∃ entries, HasEntries width separator source entries ∧
        2 ^ 64 ≤ exactMass entries) ∧
    ∀ m entries, parse source width separator = .ok m →
      HasEntries width separator source entries →
        ∃ total : UInt64, total.toNat = exactMass entries ∧ m.ScoresBy width entries total := by
  refine ⟨?_, parse_eq_overflow_iff, fun m entries hparse hentries => ?_⟩
  · simp only [parse_eq_ok_iff]
    constructor
    · rintro ⟨m, hwidth, entries, total, hentries, htotal, hne, -⟩
      refine ⟨hwidth, entries, hentries, htotal ▸ Nat.pos_of_ne_zero fun hzero => ?_,
        htotal ▸ total.toNat_lt⟩
      exact hne (UInt64.toNat_inj.mp hzero)
    · rintro ⟨hwidth, entries, hentries, hpos, hfits⟩
      have htotal : (UInt64.ofNat (exactMass entries)).toNat = exactMass entries :=
        UInt64.toNat_ofNat_of_lt' hfits
      refine ⟨_, hwidth, entries, _, hentries, htotal, fun hzero => ?_, rfl⟩
      rw [hzero, UInt64.toNat_zero] at htotal
      omega
  · obtain ⟨-, entries', total, hentries', htotal, -, rfl⟩ := parse_eq_ok_iff.mp hparse
    rw [hentries.unique hentries']
    exact ⟨total, htotal, scoresBy_ofFrequencies width entries' total⟩

/-- The last of two frequencies counts, and only once. -/
theorem parse_iff_exactMass_repeated :
    ∃ m, parse "AB 1\nAB 4\nBC 4\n" 2 ' ' = .ok m ∧ m.width = 2 ∧ m.size = 2 ∧
      m.unseen = logUnseen 8 ∧ m.scores["AB"]? = some (logShare 4 8) ∧
      m.scores["CA"]? = none := by
  have hlines : entryLines "AB 1\nAB 4\nBC 4\n" =
      ["AB 1".toList, "AB 4".toList, "BC 4".toList] := by decide +kernel
  have hentries : HasEntries 2 ' ' "AB 1\nAB 4\nBC 4\n" [("AB", 1), ("AB", 4), ("BC", 4)] :=
    hasEntries_of_lines hlines (.cons rfl (.cons rfl (.cons rfl .nil)))
  have hmass : exactMass [("AB", 1), ("AB", 4), ("BC", 4)] = 8 := by decide +kernel
  obtain ⟨hiff, -, hscores⟩ := parse_iff_exactMass "AB 1\nAB 4\nBC 4\n" 2 ' '
  obtain ⟨m, hm⟩ := hiff.mpr ⟨by decide, _, hentries, by rw [hmass]; decide⟩
  obtain ⟨total, htotal, hby⟩ := hscores m _ hm hentries
  obtain rfl : total = 8 := UInt64.toNat_inj.mp (htotal.trans hmass)
  exact ⟨m, hm, hby.width_eq, hby.size_eq, hby.unseen_eq, hby.getElem?_eq _, hby.getElem?_eq _⟩

/-- Two frequencies that are words, with a positive sum that is none: there is no model. -/
theorem parse_of_lost_mass :
    HasEntries 2 ' ' "AB 18446744073709551615\nCD 1\n"
        [("AB", 18446744073709551615), ("CD", 1)] ∧
      exactMass [("AB", 18446744073709551615), ("CD", 1)] = 2 ^ 64 ∧
      parse "AB 18446744073709551615\nCD 1\n" 2 ' ' = .error .overflow := by
  have hlines : entryLines "AB 18446744073709551615\nCD 1\n" =
      ["AB 18446744073709551615".toList, "CD 1".toList] := by decide +kernel
  have hentries : HasEntries 2 ' ' "AB 18446744073709551615\nCD 1\n"
      [("AB", 18446744073709551615), ("CD", 1)] :=
    hasEntries_of_lines hlines (.cons rfl (.cons rfl .nil))
  have hmass : exactMass [("AB", 18446744073709551615), ("CD", 1)] = 2 ^ 64 := by decide +kernel
  exact ⟨hentries, hmass, parse_eq_overflow_iff.mpr ⟨by decide, _, hentries, hmass.ge⟩⟩

end Model

end RuneSolver.Language
