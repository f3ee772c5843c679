import Mathlib.Data.List.Perm.Basic
import RuneSolver.Proofs.Alphabet.Lookup

/-!
Tables that are written from runes and read again. A rune fills one line, from which it is read
whatever character writes it, as its row has a blank for a second character and so is no comment.
Main statement: runes with different characters, whose indices are the numbers from zero up to their
count, make a table without anything overridden; it lists them by index, finds each of them by its
character, and does not depend on the order in which they are given.
-/

namespace RuneSolver

open Text (IsWord)

/-! ### The row of a rune -/

namespace Rune

/-- A rune whose row can be read again. -/
structure IsWritable (r : Rune) : Prop where
  symbol : Text.isBlank r.symbol = false
  plaintext : IsWord r.plaintext.toList

/-- The four words of a row. -/
def words (r : Rune) : List (List Char) :=
  [[r.symbol], Text.natural r.index.toNat, Text.integer r.prime.toInt, r.plaintext.toList]

/-- The row of a rune without the line feed after it. -/
def row (r : Rune) : List Char := [' '].intercalate r.words

variable {r : Rune}

lemma toList_line (r : Rune) : r.line.toList = r.row ++ ['\n'] := by
  simp [line, row, words, Text.naturalText, Text.integerText, List.intercalate_cons_cons,
    toString]

lemma IsWritable.isWord (h : r.IsWritable) : ∀ word ∈ r.words, IsWord word := by
  intro word hword
  simp only [words, List.mem_cons, List.not_mem_nil, or_false] at hword
  rcases hword with rfl | rfl | rfl | rfl
  · exact ⟨List.cons_ne_nil _ _, by simpa using h.symbol⟩
  · exact ⟨Text.natural_ne_nil _, fun c hc =>
      Text.isBlank_of_isDigit (Text.isDigit_of_mem_natural hc)⟩
  · obtain ⟨c, hc, -⟩ := Text.exists_digit_mem_integer r.prime.toInt
    exact ⟨List.ne_nil_of_mem hc, fun c hc => Text.isBlank_of_mem_integer hc⟩
  · exact h.plaintext

lemma IsWritable.writtenOn (h : r.IsWritable) : r.WrittenOn r.row := by
  refine ⟨_, _, ?_, Text.readWord_natural r.index, Text.readInt32_integer r.prime⟩
  rw [row, Text.fields_intercalate]
  have hwords : r.words.flatMap Text.fields = r.words.flatMap fun word => [word] :=
    List.flatMap_congr fun word hword => Text.fields_word (h.isWord word hword)
  rw [hwords, List.flatMap_singleton', words]

/-- A row has no blanks but spaces. -/
lemma IsWritable.eq_space_of_mem_row (h : r.IsWritable) :
    ∀ c ∈ r.row, c = ' ' ∨ Text.isBlank c = false := by
  rw [row, Text.forall_mem_intercalate (Or.inl rfl)]
  exact fun word hword c hc => .inr ((h.isWord word hword).2 c hc)

lemma IsWritable.carriesData_row (h : r.IsWritable) : carriesData r.row = true := by
  obtain ⟨rest, hrow⟩ : ∃ rest, r.row = r.symbol :: ' ' :: rest := ⟨_, rfl⟩
  rw [hrow, carriesData, commentMark, Text.isBlankLine, List.all_cons, h.symbol]
  simp [List.isPrefixOf]

/-- The row of a rune is the first line of what begins with it. -/
lemma IsWritable.lines_append (h : r.IsWritable) (rest : List Char) :
    Text.lines (r.line.toList ++ rest) = r.row :: Text.lines rest := by
  have hnot {c : Char} (hblank : Text.isBlank c = true) (hspace : c ≠ ' ') : c ∉ r.row := by
    intro hc
    rcases h.eq_space_of_mem_row c hc with heq | hno
    · exact hspace heq
    · rw [hblank] at hno
      cases hno
  rw [toList_line, List.append_assoc, List.singleton_append]
  exact Text.lines_append_cons (hnot (by decide) (by decide))
    (fun hlast => hnot (by decide) (by decide) (List.mem_of_getLast? hlast)) rest

end Rune

/-- The rows of runes are read from what is written. -/
lemma hasRows_join {runes : List Rune} (h : ∀ r ∈ runes, r.IsWritable) :
    HasRows (String.join (runes.map Rune.line)) runes := by
  rw [HasRows, dataLines, String.toList_join, List.flatMap_map]
  induction runes with
  | nil => exact .nil
  | cons r runes ih =>
    obtain ⟨hr, hrunes⟩ := List.forall_mem_cons.mp h
    rw [List.flatMap_cons, hr.lines_append, List.filter_cons_of_pos hr.carriesData_row]
    exact .cons hr.writtenOn (ih hrunes)

/-! ### Runes with different keys -/

section

variable {κ : Type} [BEq κ] [LawfulBEq κ] {key : Rune → κ} {runes : List Rune} {r : Rune}

/-- Behind others whose keys are different from its own a rune overrides none. -/
lemma find?_reverse_take {k : ℕ} (hkeys : (runes.map key).Nodup) (hr : runes[k]? = some r) :
    (runes.take k).reverse.find? (key · == key r) = none := by
  obtain ⟨hk, rfl⟩ := List.getElem?_eq_some_iff.mp hr
  rw [List.find?_eq_none]
  intro q hq hsame
  obtain ⟨j, hj, rfl⟩ := List.mem_take_iff_getElem.mp (List.mem_reverse.mp hq)
  have hlater : k < (runes.map key).length := by simpa using hk
  have hearlier : j < (runes.map key).length := by omega
  have hmap : (runes.map key)[j] = (runes.map key)[k] := by simpa using hsame
  have hjk := hkeys.getElem_inj_iff.mp hmap
  omega

/-- Of runes with different keys, the one of a key is the last one of this key. -/
lemma find?_reverse_eq_some_iff {k : κ} (hkeys : (runes.map key).Nodup) :
    runes.reverse.find? (key · == k) = some r ↔ r ∈ runes ∧ key r = k := by
  constructor
  · intro hr
    exact ⟨List.mem_reverse.mp (List.mem_of_find?_eq_some hr), by simpa using List.find?_some hr⟩
  · rintro ⟨hr, rfl⟩
    have hsome : (runes.reverse.find? (key · == key r)).isSome :=
      List.find?_isSome.mpr ⟨r, List.mem_reverse.mpr hr, beq_self_eq_true _⟩
    obtain ⟨q, hq⟩ := Option.isSome_iff_exists.mp hsome
    have hqmem := List.mem_reverse.mp (List.mem_of_find?_eq_some hq)
    have hkey : key q = key r := by simpa using List.find?_some hq
    rw [hq, List.inj_on_of_nodup_map hkeys hqmem hr hkey]

end

/-! ### Runes that make a table -/

/-- Runes that can be written, with different characters, whose indices are the numbers from zero
up to their count, in any order. -/
structure IsTable (runes : List Rune) : Prop where
  ne_nil : runes ≠ []
  writable : ∀ r ∈ runes, r.IsWritable
  symbols_nodup : (runes.map Rune.symbol).Nodup
  indices_perm : (runes.map (·.index.toNat)).Perm (List.range runes.length)

namespace IsTable

variable {runes order : List Rune} {r q : Rune}

lemma perm (h : IsTable runes) (horder : order.Perm runes) : IsTable order where
  ne_nil := fun hnil => h.ne_nil (hnil ▸ horder).symm.eq_nil
  writable := fun r hr => h.writable r (horder.mem_iff.mp hr)
  symbols_nodup := (horder.map _).nodup_iff.mpr h.symbols_nodup
  indices_perm := by
    rw [horder.length_eq]
    exact (horder.map _).trans h.indices_perm

lemma indices_nodup (h : IsTable runes) : (runes.map Rune.index).Nodup := by
  have hnat : ((runes.map Rune.index).map UInt64.toNat).Nodup := by
    rw [List.map_map]
    exact h.indices_perm.nodup_iff.mpr List.nodup_range
  exact hnat.of_map _

lemma eq_of_index_eq (h : IsTable runes) (hr : r ∈ runes) (hq : q ∈ runes)
    (heq : r.index = q.index) : r = q :=
  List.inj_on_of_nodup_map h.indices_nodup hr hq heq

lemma overriddenBy_eq_nil (h : IsTable runes) : overriddenBy runes = [] := by
  rw [overriddenBy, List.flatMap_eq_nil_iff]
  rintro ⟨r, k⟩ hrow
  have hr := List.mem_zipIdx_iff_getElem?.mp hrow
  rw [overriddenBehind, find?_reverse_take h.symbols_nodup hr,
    find?_reverse_take h.indices_nodup hr]
  rfl

end IsTable

/-! ### The table of runes -/

/-- Runes by their indices, from the lowest one on. -/
def byIndex (runes : List Rune) : List Rune := runes.mergeSort fun r q => r.index ≤ q.index

lemma perm_byIndex (runes : List Rune) : (byIndex runes).Perm runes := List.mergeSort_perm runes _

lemma pairwise_byIndex (runes : List Rune) :
    (byIndex runes).Pairwise fun r q => r.index ≤ q.index := by
  have hsorted : (byIndex runes).Pairwise fun r q => decide (r.index ≤ q.index) = true :=
    List.pairwise_mergeSort
      (fun a b c hab hbc => by
        simpa using UInt64.le_trans (by simpa using hab) (by simpa using hbc))
      (fun a b => by simpa using UInt64.le_total a.index b.index) runes
  exact hsorted.imp fun hle => by simpa using hle

/-- There is only one way to list the runes of a table by their indices. -/
lemma IsTable.eq_byIndex {runes listed : List Rune} (h : IsTable runes) (hperm : listed.Perm runes)
    (hsorted : listed.Pairwise fun r q => r.index ≤ q.index) : listed = byIndex runes := by
  refine List.Perm.eq_of_pairwise (fun r q hr hq hrq hqr => ?_) hsorted (pairwise_byIndex runes)
    (hperm.trans (perm_byIndex runes).symm)
  exact h.eq_of_index_eq (hperm.mem_iff.mp hr) ((perm_byIndex runes).mem_iff.mp hq)
    (UInt64.le_antisymm hrq hqr)

namespace Alphabet

/-- The table lists these runes by index, and finds each of them by its character. -/
structure TableOf (a : Alphabet) (runes : List Rune) : Prop where
  runes_eq : a.runes.toList = byIndex runes
  rune?_iff : ∀ c r, a.rune? c = some r ↔ r ∈ runes ∧ r.symbol = c

/-- Neither the runes by index nor those by character tell the tables apart. -/
structure Same (a b : Alphabet) : Prop where
  runes_eq : a.runes = b.runes
  rune?_eq : ∀ c, a.rune? c = b.rune? c

variable {a b : Alphabet} {runes order : List Rune}

lemma TableOf.same (ha : a.TableOf runes) (hb : b.TableOf order) (h : IsTable runes)
    (hperm : order.Perm runes) : b.Same a where
  runes_eq := by
    rw [← Array.toList_inj, ha.runes_eq, hb.runes_eq]
    exact h.eq_byIndex ((perm_byIndex order).trans hperm) (pairwise_byIndex order)
  rune?_eq c := Option.ext fun r => by rw [ha.rune?_iff, hb.rune?_iff, hperm.mem_iff]

/-- A table that finds runes by their indices lists them in this order. -/
lemma runes_eq_byIndex (h : IsTable runes)
    (hat : ∀ i r, a.at? i = some r ↔ r ∈ runes ∧ r.index.toNat = i) :
    a.runes.toList = byIndex runes := by
  have hget {i : ℕ} {r : Rune} :
      a.runes.toList[i]? = some r ↔ r ∈ runes ∧ r.index.toNat = i := by
    rw [Array.getElem?_toList, ← hat, at?]
  have hsorted : a.runes.toList.Pairwise fun r q => r.index < q.index := by
    rw [List.pairwise_iff_getElem]
    intro i j hi hj hij
    rw [UInt64.lt_iff_toNat_lt, (hget.mp (List.getElem?_eq_getElem hi)).2,
      (hget.mp (List.getElem?_eq_getElem hj)).2]
    exact hij
  have hlisted : a.runes.toList.Nodup := hsorted.imp fun {r q} hlt heq => by
    rw [heq] at hlt
    exact UInt64.lt_irrefl _ hlt
  have hperm : a.runes.toList.Perm runes := by
    rw [List.perm_ext_iff_of_nodup hlisted (h.symbols_nodup.of_map _)]
    intro r
    rw [List.mem_iff_getElem?]
    simp only [hget, exists_and_left, exists_eq', and_true]
  exact h.eq_byIndex hperm (hsorted.imp UInt64.le_of_lt)

lemma exists_ofRunes (h : IsTable runes) :
    ∃ a, ofRunes runes = ([], .ok a) ∧ a.TableOf runes := by
  have hrows := hasRows_join h.writable
  have hindices : ∀ i : ℕ, (∃ r ∈ runes, r.index.toNat = i) ↔ i < runes.length := by
    intro i
    rw [← List.mem_range, ← h.indices_perm.mem_iff, List.mem_map]
  obtain ⟨a, ha⟩ := (exists_parse_iff hrows).mpr ⟨h.ne_nil, runes.length, hindices⟩
  have hrowsOf : ofRows (.ofRunes runes) = .ok a := by
    rw [← ha, parse_eq hrows]
  have hfinds := finds_of_ofRows hrowsOf
  refine ⟨a, Prod.ext ?_ ha, runes_eq_byIndex h fun i r => ?_, fun c r => ?_⟩
  · rw [ofRunes, parse_eq hrows, h.overriddenBy_eq_nil]
  · rw [hfinds.at?_eq]
    exact find?_reverse_eq_some_iff (h.indices_perm.nodup_iff.mpr List.nodup_range)
  · rw [hfinds.rune?_eq]
    exact find?_reverse_eq_some_iff h.symbols_nodup

/-- **A table is that of its runes, in whatever order they are given.** Nothing of it is overridden,
it lists the runes by index and finds each of them by its character, and what it lists makes the
same table again. -/
theorem ofRunes_of_isTable (h : IsTable runes) :
    ∃ a, ofRunes runes = ([], .ok a) ∧
      a.runes.toList = runes.mergeSort (fun r q => r.index ≤ q.index) ∧
      (∀ c r, a.rune? c = some r ↔ r ∈ runes ∧ r.symbol = c) ∧
      (∀ order : List Rune, order.Perm runes → ∃ b, ofRunes order = ([], .ok b) ∧ b.Same a) ∧
      ∃ b, ofRunes a.runes.toList = ([], .ok b) ∧ b.Same a := by
  obtain ⟨a, hparse, ha⟩ := exists_ofRunes h
  have hany (order : List Rune) (horder : order.Perm runes) :
      ∃ b, ofRunes order = ([], .ok b) ∧ b.Same a := by
    obtain ⟨b, hb, hordered⟩ := exists_ofRunes (h.perm horder)
    exact ⟨b, hb, ha.same hordered h horder⟩
  refine ⟨a, hparse, ha.runes_eq, ha.rune?_iff, hany, hany _ ?_⟩
  rw [ha.runes_eq]
  exact perm_byIndex runes

/-! ### Runes that look like comments and numbers -/

/-- A slash, a digit and a combining accent, not in the order of their indices. -/
def oddRunes : List Rune :=
  [⟨'/', 2, -2147483648, "//"⟩, ⟨'7', 0, 2, "0"⟩, ⟨'\u0301', 1, 3, "1ß"⟩]

lemma isTable_oddRunes : IsTable oddRunes where
  ne_nil := List.cons_ne_nil _ _
  writable := by
    simp only [oddRunes, List.forall_mem_cons]
    exact ⟨⟨by decide, Text.isWord_of_all (by decide)⟩, ⟨by decide, Text.isWord_of_all (by decide)⟩,
      ⟨by decide, Text.isWord_of_all (by decide)⟩, nofun⟩
  symbols_nodup := by decide
  indices_perm := by decide

theorem ofRunes_of_isTable_oddRunes :
    IsTable oddRunes ∧ ∃ a, ofRunes oddRunes = ([], .ok a) ∧
      a.runes.toList = [⟨'7', 0, 2, "0"⟩, ⟨'\u0301', 1, 3, "1ß"⟩, ⟨'/', 2, -2147483648, "//"⟩] ∧
      a.rune? '/' = some ⟨'/', 2, -2147483648, "//"⟩ ∧
      (∃ b, ofRunes oddRunes.reverse = ([], .ok b) ∧ b.Same a) ∧
      ∃ b, ofRunes a.runes.toList = ([], .ok b) ∧ b.Same a := by
  obtain ⟨a, hparse, hsorted, hfound, horder, hagain⟩ := ofRunes_of_isTable isTable_oddRunes
  have hlisted : [⟨'7', 0, 2, "0"⟩, ⟨'\u0301', 1, 3, "1ß"⟩, ⟨'/', 2, -2147483648, "//"⟩] =
      byIndex oddRunes := isTable_oddRunes.eq_byIndex (by decide) (by decide)
  exact ⟨isTable_oddRunes, a, hparse, hsorted.trans hlisted.symm,
    (hfound _ _).mpr ⟨List.mem_cons_self, rfl⟩, horder _ (List.reverse_perm _), hagain⟩

end Alphabet

end RuneSolver
