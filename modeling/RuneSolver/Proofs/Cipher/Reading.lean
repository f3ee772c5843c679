import RuneSolver.Cipher.Decipherment
import RuneSolver.Proofs.Cipher.Passing

/-!
What a formula is evaluated on at each rune of a document, told from the document as a whole. The
runes are numbered through all lines of cipher text. The previous rune of a rune is the one that was
evaluated last before it, unless the seeding of the first line that starts with a rune came
later; before both it is the rune of index zero.
-/

namespace RuneSolver.Cipher

/-- The runes of lines, in order. -/
def runesOf (a : Alphabet) (lines : List (List Char)) : List Rune :=
  lines.flatten.filterMap a.rune?

lemma runesOf_append {a : Alphabet} {done lines : List (List Char)} :
    runesOf a (done ++ lines) = runesOf a done ++ runesOf a lines := by
  rw [runesOf, List.flatten_append, List.filterMap_append]
  rfl

lemma runesOf_cons {a : Alphabet} {line : List Char} {lines : List (List Char)} :
    runesOf a (line :: lines) = line.filterMap a.rune? ++ runesOf a lines := by
  rw [runesOf, List.flatten_cons, List.filterMap_append]
  rfl

lemma length_runesOf_concat {a : Alphabet} {done : List (List Char)} {line : List Char} :
    (runesOf a (done ++ [line])).length =
      (runesOf a done).length + (line.filterMap a.rune?).length := by
  rw [runesOf_append, runesOf_cons, List.length_append, List.length_append]
  rfl

/-- Where the seeding happens, as the number of the runes before it, and the rune that it gives. -/
def seeding? (a : Alphabet) (lines : List (List Char)) : Option (ℕ × Rune) :=
  (lines.findSome? (seed? a)).map fun rune =>
    ((runesOf a (lines.takeWhile fun line => (seed? a line).isNone)).length, rune)

/-- The runes of a document with what else decides how they are deciphered. -/
structure Reading where
  first : Rune
  runes : List Rune
  skips : Skips
  seeding : Option (ℕ × Rune)

namespace Reading

def ofDocument (a : Alphabet) (first : Rune) (d : Document) : Reading :=
  ⟨first, runesOf a d.content, d.skips, seeding? a d.content⟩

variable (r : Reading)

def runeAt (j : ℕ) : Rune := r.runes.getD j r.first

/-- The rune that counts as previous to those from some number on until one is evaluated. At the
rune `j` this is the seeding if it has happened, and the first rune of all otherwise. -/
def originAt (j : ℕ) : ℕ × Rune :=
  match r.seeding with
  | some (m, rune) => if m ≤ j then (m, rune) else (0, r.first)
  | none => (0, r.first)

/-- The runes from the number `m` on and before `j` that are evaluated. -/
def evaluated (m j : ℕ) : List Rune :=
  ((List.range j).filter fun k => m ≤ k ∧ k ∉ r.skips.passing).map r.runeAt

/-- The rune evaluated last before the rune `j`, if there is one since the origin. -/
def previousFrom (origin : ℕ × Rune) (j : ℕ) : Rune :=
  (r.evaluated origin.1 j).getLastD origin.2

def previousAt (j : ℕ) : Rune := r.previousFrom (r.originAt j) j

/-- What the formula is evaluated on at the rune `j`. -/
def contextAt (j : ℕ) : Context :=
  ⟨r.runeAt j, r.previousAt j, Int32.ofNat (r.skips.positionOf j)⟩

variable {r}

/-! ### Previous runes -/

lemma fst_originAt_le (r : Reading) (j : ℕ) : (r.originAt j).1 ≤ j := by
  unfold originAt
  split
  · split
    · assumption
    · exact Nat.zero_le j
  · exact Nat.zero_le j

lemma evaluated_self (r : Reading) (m : ℕ) : r.evaluated m m = [] := by
  rw [evaluated, List.map_eq_nil_iff, List.filter_eq_nil_iff]
  intro k hk h
  have := List.mem_range.mp hk
  simp only [decide_eq_true_eq] at h
  omega

lemma previousFrom_self (r : Reading) (origin : ℕ × Rune) :
    r.previousFrom origin origin.1 = origin.2 := by
  rw [previousFrom, evaluated_self, List.getLastD_nil]

lemma evaluated_succ (m j : ℕ) :
    r.evaluated m (j + 1) =
      r.evaluated m j ++ if m ≤ j ∧ j ∉ r.skips.passing then [r.runeAt j] else [] := by
  rw [evaluated, List.range_succ, List.filter_append, List.map_append, ← evaluated]
  by_cases h : m ≤ j ∧ j ∉ r.skips.passing
  · rw [if_pos h, List.filter_cons_of_pos (by simpa using h)]
    rfl
  · rw [if_neg h, List.filter_cons_of_neg (by simpa using h)]
    rfl

/-- A rune that passes through is not previous to any other. -/
lemma previousFrom_succ_of_mem {j : ℕ} (origin : ℕ × Rune) (h : j ∈ r.skips.passing) :
    r.previousFrom origin (j + 1) = r.previousFrom origin j := by
  rw [previousFrom, evaluated_succ, if_neg fun hj => hj.2 h, List.append_nil, previousFrom]

lemma previousFrom_succ_of_not_mem {j : ℕ} {origin : ℕ × Rune} (ho : origin.1 ≤ j)
    (h : j ∉ r.skips.passing) : r.previousFrom origin (j + 1) = r.runeAt j := by
  rw [previousFrom, evaluated_succ, if_pos ⟨ho, h⟩, List.getLastD_concat]

/-! ### The seeding -/

variable {a : Alphabet} {first : Rune} {d : Document} {done lines : List (List Char)}
  {line : List Char}

/-- From the line that seeds on, its rune is the origin. -/
lemma originAt_of_seeds {rune : Rune} {j : ℕ} (hd : d.content = done ++ line :: lines)
    (hdone : ∀ l ∈ done, seed? a l = none) (hline : seed? a line = some rune)
    (hj : (runesOf a done).length ≤ j) :
    (ofDocument a first d).originAt j = ((runesOf a done).length, rune) := by
  have hseed : seeding? a d.content = some ((runesOf a done).length, rune) := by
    have hfind : done.findSome? (seed? a) = none := List.findSome?_eq_none_iff.mpr hdone
    have htake : (d.content.takeWhile fun l => (seed? a l).isNone) = done := by
      rw [hd, List.takeWhile_append_of_pos fun l hl => by rw [hdone l hl]; rfl,
        List.takeWhile_cons, hline]
      exact List.append_nil done
    rw [seeding?, htake, hd, List.findSome?_append, hfind, List.findSome?_cons, hline]
    rfl
  unfold originAt
  simp only [ofDocument, hseed, if_pos hj]

/-- Before the line that seeds, the first rune of all is the origin. -/
lemma originAt_of_not_seeds {j : ℕ} (hd : d.content = done ++ lines)
    (hdone : ∀ l ∈ done, seed? a l = none) (hj : j < (runesOf a done).length) :
    (ofDocument a first d).originAt j = (0, first) := by
  unfold originAt
  simp only [ofDocument, seeding?]
  cases d.content.findSome? (seed? a) with
  | none => rfl
  | some rune =>
    have hle : (runesOf a done).length ≤
        (runesOf a (d.content.takeWhile fun l => (seed? a l).isNone)).length := by
      rw [hd, List.takeWhile_append_of_pos fun l hl => by rw [hdone l hl]; rfl, runesOf_append,
        List.length_append]
      exact Nat.le_add_right _ _
    simp only [Option.map_some]
    rw [if_neg (by omega)]

end Reading

end RuneSolver.Cipher
