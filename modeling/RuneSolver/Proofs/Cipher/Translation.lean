import Mathlib.Algebra.Group.Nat.Defs
import RuneSolver.Proofs.Alphabet
import RuneSolver.Proofs.Cipher.Reading
import RuneSolver.Proofs.Formula.Machine
import RuneSolver.Proofs.Word

/-!
The text that a document is deciphered to, told from the document as a whole. Main statement:
the walk along the runes, with the skips it still has to make, gives the characters of the lines
with each rune replaced on its own, by what its number says about it; if some runes have no value,
it gives the failure of the first of them.
-/

namespace RuneSolver.Cipher

/-- What stands in the cipher text, with the numbers of the runes. -/
inductive Place where
  | plain (c : Char)
  | lineEnd
  | rune (number : ℕ)

namespace Place

/-- The places of the rest of a line, whose first rune has a number. -/
def ofLine (a : Alphabet) : ℕ → List Char → List Place
  | _, [] => [.lineEnd]
  | j, c :: cs =>
    match a.rune? c with
    | none => .plain c :: ofLine a j cs
    | some _ => .rune j :: ofLine a (j + 1) cs

def ofLines (a : Alphabet) : ℕ → List (List Char) → List Place
  | _, [] => []
  | j, line :: lines => ofLine a j line ++ ofLines a (j + (line.filterMap a.rune?).length) lines

def number? : Place → Option ℕ
  | rune number => some number
  | _ => none

end Place

namespace Solver

variable (s : Solver) (f : Formula) (r : Reading)

/-- The value of a formula at the rune `j`. -/
def valueAt (j : ℕ) : Except FormulaError Int32 := f.evaluate s.tables (r.contextAt j)

/-- Why a formula has no value at the rune `j`. At a rune that passes through it needs none. -/
def failureAt? (j : ℕ) : Option FormulaError :=
  if j ∈ r.skips.passing then none
  else
    match s.valueAt f r j with
    | .error e => some e
    | .ok _ => none

/-- The index that a value is deciphered to: the value on the cycle of the indices, moved by the
shift. -/
def targetOf (shift : UInt64) (v : Int32) : ℕ := ((v.toInt % s.size).toNat + shift.toNat) % s.size

/-- The text that a place is deciphered to. -/
def placeText (shift : UInt64) : Place → List Char
  | .plain c => [c]
  | .lineEnd => ['\n']
  | .rune j =>
    if j ∈ r.skips.passing then (r.runeAt j).plaintext.toList
    else
      match s.valueAt f r j with
      | .ok v => ((s.alphabet.at? (s.targetOf shift v)).map (·.plaintext.toList)).getD []
      | .error _ => []

/-- The segment of a place, or the failure of its rune. -/
def segmentAt : Place → Except FormulaError Segment
  | .plain c => .ok (.plain c)
  | .lineEnd => .ok .lineEnd
  | .rune j =>
    if j ∈ r.skips.passing then .ok (.skipped (r.runeAt j))
    else (s.valueAt f r j).bind fun v =>
      .ok (.computed (Number.residue v (Int32.ofNat s.size)).toNat)

end Solver

/-! ### The walk -/

/-- The walk has come to the rune `j`, with the previous runes counted from an origin. -/
structure Walk.Stands (r : Reading) (origin : ℕ × Rune) (j : ℕ) (w : Walk) : Prop where
  position : w.position = r.skips.positionOf j
  pending : w.pending = r.skips.pendingAt j
  previous : w.previous = r.previousFrom origin j

variable {s : Solver} {f : Formula} {r : Reading} {origin : ℕ × Rune} {j : ℕ} {w : Walk}

namespace Walk

lemma Stands.passSkip (h : w.Stands r origin j) (hj : j ∈ r.skips.passing) :
    w.passSkip.Stands r origin (j + 1) := by
  obtain ⟨hposition, hpending⟩ := Skips.next_of_mem hj
  refine ⟨?_, ?_, ?_⟩
  · rw [hposition]
    exact h.position
  · rw [hpending, ← h.pending, ← h.position]
    rfl
  · rw [Reading.previousFrom_succ_of_mem origin hj]
    exact h.previous

lemma Stands.pass (h : w.Stands r origin j) (ho : origin.1 ≤ j) (hj : j ∉ r.skips.passing) :
    (w.pass (r.runeAt j)).Stands r origin (j + 1) := by
  obtain ⟨hposition, hpending⟩ := Skips.next_of_not_mem hj
  refine ⟨?_, ?_, ?_⟩
  · rw [hposition, ← h.position]
    rfl
  · rw [hpending]
    exact h.pending
  · rw [Reading.previousFrom_succ_of_not_mem ho hj]
    rfl

end Walk

namespace Solver

open Machine

/-- One rune: its segment is what its number says, and the walk comes to the next number. -/
lemma settled_step {c : Char} (h : w.Stands r origin j) (ho : r.originAt j = origin)
    (hc : s.alphabet.rune? c = some (r.runeAt j)) :
    ∃ w' : Walk, w'.Stands r origin (j + 1) ∧ w'.seeded = w.seeded ∧
      Settled (s.step f w c) ((s.segmentAt f r (.rune j)).map (·, w')) := by
  have hmem : w.position ∈ w.pending ↔ j ∈ r.skips.passing := by
    rw [h.position, h.pending, Skips.positionOf_mem_pendingAt]
  by_cases hj : j ∈ r.skips.passing
  · refine ⟨w.passSkip, h.passSkip hj, rfl, ?_⟩
    rw [step, hc, segmentAt, if_pos hj]
    simp only
    rw [if_pos (hmem.mpr hj)]
    exact settled_pure _
  · have ho' : origin.1 ≤ j := ho ▸ r.fst_originAt_le j
    have hcontext : (⟨r.runeAt j, w.previous, Int32.ofNat w.position⟩ : Context) =
        r.contextAt j := by
      rw [Reading.contextAt, Reading.previousAt, ho, h.previous, h.position]
    refine ⟨w.pass (r.runeAt j), h.pass ho' hj, rfl, ?_⟩
    have htarget := (f.settled_target s.tables (r.contextAt j) s.size).bind fun i =>
      settled_pure (Segment.computed i, w.pass (r.runeAt j))
    rw [step, hc, segmentAt, if_neg hj, valueAt]
    simp only
    rw [if_neg fun hp => hj (hmem.mp hp), index, hcontext]
    cases hvalue : f.evaluate s.tables (r.contextAt j) with
    | ok v => rwa [hvalue] at htarget
    | error e => rwa [hvalue] at htarget

lemma map_mapM_cons (place : Place) (places : List Place) :
    ((place :: places).mapM (s.segmentAt f r)).map (·, w) =
      (s.segmentAt f r place).bind fun segment =>
        ((places.mapM (s.segmentAt f r)).map (·, w)).bind fun rest =>
          .ok (segment :: rest.1, rest.2) := by
  rw [List.mapM_cons]
  cases s.segmentAt f r place with
  | error e => rfl
  | ok segment => cases places.mapM (s.segmentAt f r) <;> rfl

/-- The rest of a line, all of whose runes have the same origin. -/
lemma settled_lineSegments {cs : List Char} {rest : List Rune} (h : w.Stands r origin j)
    (hcs : r.runes.drop j = cs.filterMap s.alphabet.rune? ++ rest)
    (ho : ∀ k, j ≤ k → k < j + (cs.filterMap s.alphabet.rune?).length → r.originAt k = origin) :
    ∃ w' : Walk, w'.Stands r origin (j + (cs.filterMap s.alphabet.rune?).length) ∧
      w'.seeded = w.seeded ∧
      Settled (s.lineSegments f w cs)
        (((Place.ofLine s.alphabet j cs).mapM (s.segmentAt f r)).map (·, w')) := by
  induction cs generalizing w j with
  | nil => exact ⟨w, h, rfl, settled_pure _⟩
  | cons c cs ih =>
    rw [lineSegments, Place.ofLine]
    cases hc : s.alphabet.rune? c with
    | none =>
      rw [List.filterMap_cons_none hc] at hcs ho ⊢
      obtain ⟨w', hw', hseeded, hsettled⟩ := ih h hcs ho
      have hstep : s.step f w c = pure (.plain c, w) := by rw [step, hc]
      refine ⟨w', hw', hseeded, ?_⟩
      simp only
      rw [hstep, pure_bind, map_mapM_cons]
      exact hsettled.bind fun _ => settled_pure _
    | some rune =>
      rw [List.filterMap_cons_some hc] at hcs ho ⊢
      rw [List.length_cons] at ho ⊢
      have hrune : r.runeAt j = rune := by
        rw [Reading.runeAt, List.getD_eq_getElem?_getD, ← List.head?_drop, hcs]
        rfl
      have hdrop : r.runes.drop (j + 1) = cs.filterMap s.alphabet.rune? ++ rest := by
        rw [← List.drop_drop, hcs]
        rfl
      obtain ⟨w₁, hw₁, hseeded₁, hstep⟩ :=
        settled_step (f := f) h (ho j (Nat.le_refl j) (by omega)) (hrune ▸ hc)
      obtain ⟨w', hw', hseeded, hsettled⟩ :=
        ih hw₁ hdrop fun k hle hlt => ho k (by omega) (by omega)
      refine ⟨w', ?_, hseeded.trans hseeded₁, ?_⟩
      · rw [show j + ((cs.filterMap s.alphabet.rune?).length + 1) =
          j + 1 + (cs.filterMap s.alphabet.rune?).length by omega]
        exact hw'
      · simp only
        rw [map_mapM_cons]
        exact hstep.bind_map fun _ => hsettled.bind fun _ => settled_pure _

end Solver

/-! ### The lines -/

/-- The walk has done some lines of a document, and the origin after them is known: for good once
a line has seeded, and up to the next line that seeds otherwise. -/
structure Walk.Done (a : Alphabet) (first : Rune) (d : Document) (done : List (List Char))
    (origin : ℕ × Rune) (w : Walk) : Prop where
  stands : w.Stands (.ofDocument a first d) origin (runesOf a done).length
  seeded : w.seeded = true →
    ∀ k, (runesOf a done).length ≤ k → (Reading.ofDocument a first d).originAt k = origin
  unseeded : w.seeded = false → origin = (0, first) ∧ ∀ line ∈ done, seed? a line = none

section Lines

variable {a : Alphabet} {first : Rune} {d : Document} {done lines : List (List Char)}
  {line : List Char}

/-- Entering a line gives all of its runes one origin, which is known after the line as well. -/
lemma Walk.Done.enter (h : w.Done a first d done origin) (hd : d.content = done ++ line :: lines) :
    ∃ origin' : ℕ × Rune,
      (w.enter a line).Stands (.ofDocument a first d) origin' (runesOf a done).length ∧
      (∀ k, (runesOf a done).length ≤ k → k < (runesOf a (done ++ [line])).length →
        (Reading.ofDocument a first d).originAt k = origin') ∧
      ∀ w' : Walk,
        w'.Stands (.ofDocument a first d) origin' (runesOf a (done ++ [line])).length →
        w'.seeded = (w.enter a line).seeded → w'.Done a first d (done ++ [line]) origin' := by
  have hlength := @length_runesOf_concat a done line
  cases hs : w.seeded with
  | true =>
    have henter : w.enter a line = w := by rw [Walk.enter, if_pos hs]
    rw [henter]
    refine ⟨origin, h.stands, fun k hk _ => h.seeded hs k hk, fun w' hw' hseeded => ?_⟩
    refine ⟨hw', fun _ k hk => h.seeded hs k (by omega), fun hno => ?_⟩
    rw [hseeded, hs] at hno
    cases hno
  | false =>
    obtain ⟨rfl, hdone⟩ := h.unseeded hs
    cases hline : seed? a line with
    | some rune =>
      have horigin : ∀ k, (runesOf a done).length ≤ k →
          (Reading.ofDocument a first d).originAt k = ((runesOf a done).length, rune) :=
        fun k hk => Reading.originAt_of_seeds hd hdone hline hk
      have henter : w.enter a line = { w with previous := rune, seeded := true } := by
        rw [Walk.enter, hs, hline]
        rfl
      rw [henter]
      refine ⟨((runesOf a done).length, rune), ⟨h.stands.position, h.stands.pending, ?_⟩,
        fun k hk _ => horigin k hk, fun w' hw' hseeded => ?_⟩
      · exact (Reading.previousFrom_self _ ((runesOf a done).length, rune)).symm
      · refine ⟨hw', fun _ k hk => horigin k (by omega), fun hno => ?_⟩
        rw [hseeded] at hno
        cases hno
    | none =>
      have henter : w.enter a line = w := by
        rw [Walk.enter, hs, hline]
        rfl
      have hdone' : ∀ l ∈ done ++ [line], seed? a l = none := by
        intro l hl
        rcases List.mem_append.mp hl with hl | hl
        · exact hdone l hl
        · rw [List.mem_singleton.mp hl]
          exact hline
      rw [henter]
      refine ⟨(0, first), h.stands, fun k _ hk => ?_, fun w' hw' hseeded => ?_⟩
      · exact Reading.originAt_of_not_seeds (by rw [hd, List.append_cons]) hdone' hk
      · refine ⟨hw', fun hyes => ?_, fun _ => ⟨rfl, hdone'⟩⟩
        rw [hseeded, hs] at hyes
        cases hyes

/-- The lines that are left give the segments of their places. -/
lemma Solver.settled_contentSegments {s : Solver} (f : Formula)
    (h : w.Done s.alphabet first d done origin) (hd : d.content = done ++ lines) :
    Machine.Settled (s.contentSegments f w lines)
      ((Place.ofLines s.alphabet (runesOf s.alphabet done).length lines).mapM
        (s.segmentAt f (.ofDocument s.alphabet first d))) := by
  induction lines generalizing done origin w with
  | nil => exact Machine.settled_pure []
  | cons line lines ih =>
    obtain ⟨origin', hstands, horigin, hdone⟩ := h.enter hd
    rw [length_runesOf_concat] at horigin hdone
    have hdrop : (Reading.ofDocument s.alphabet first d).runes.drop
        (runesOf s.alphabet done).length =
        line.filterMap s.alphabet.rune? ++ runesOf s.alphabet lines := by
      change (runesOf s.alphabet d.content).drop _ = _
      rw [hd, runesOf_append, List.drop_left, runesOf_cons]
    obtain ⟨w', hw', hseeded, hline⟩ :=
      Solver.settled_lineSegments (f := f) hstands hdrop horigin
    have hlines := ih (hdone w' hw' hseeded) (by rw [hd, List.append_cons])
    rw [length_runesOf_concat] at hlines
    rw [Solver.contentSegments, Place.ofLines, List.mapM_append]
    exact hline.bind_map fun _ => hlines.bind fun _ => Machine.settled_pure _

end Lines

/-! ### The text -/

lemma Place.filterMap_ofLine {a : Alphabet} (j : ℕ) (cs : List Char) :
    (ofLine a j cs).filterMap number? = List.range' j (cs.filterMap a.rune?).length := by
  induction cs generalizing j with
  | nil => rfl
  | cons c cs ih =>
    rw [ofLine]
    cases hc : a.rune? c with
    | none =>
      rw [List.filterMap_cons_none hc]
      exact ih j
    | some rune =>
      rw [List.filterMap_cons_some hc, List.length_cons, List.range'_succ, ← ih (j + 1)]
      rfl

/-- The numbers of the runes go through all lines. -/
lemma Place.filterMap_ofLines {a : Alphabet} (j : ℕ) (lines : List (List Char)) :
    (ofLines a j lines).filterMap number? = List.range' j (runesOf a lines).length := by
  induction lines generalizing j with
  | nil => rfl
  | cons line lines ih =>
    rw [ofLines, List.filterMap_append, filterMap_ofLine, ih, runesOf_cons, List.length_append,
      List.range'_append_1]

namespace Solver

/-- The failure of a place is that of its rune. -/
def failureOf? (s : Solver) (f : Formula) (r : Reading) (place : Place) : Option FormulaError :=
  place.number?.bind (s.failureAt? f r)

lemma findSome?_ofLines {a : Alphabet} (lines : List (List Char)) :
    (Place.ofLines a 0 lines).findSome? (s.failureOf? f r) =
      (List.range (runesOf a lines).length).findSome? (s.failureAt? f r) := by
  rw [List.range_eq_range', ← Place.filterMap_ofLines, ← List.head?_filterMap,
    ← List.head?_filterMap, List.filterMap_filterMap]
  rfl

variable {shift : UInt64}

lemma shifted?_of_lt {index : ℕ} (h : index + shift.toNat < 2 ^ 64) :
    s.shifted? shift index = some ((index + shift.toNat) % s.size) := by
  have hindex : (UInt64.ofNat index).toNat = index :=
    UInt64.toNat_ofNat_of_lt' (Nat.lt_of_le_of_lt (Nat.le_add_right index shift.toNat) h)
  rw [shifted?]
  cases hsum : Word.add? (.ofNat index) shift with
  | some sum => rw [Option.map_some, Word.add?_eq_some_iff.mp hsum, hindex]
  | none =>
    have hleaves := Word.add?_eq_none_iff.mp hsum
    rw [hindex] at hleaves
    omega

lemma shifted?_eq_none_iff {index : ℕ} (hindex : index < 2 ^ 64) :
    s.shifted? shift index = none ↔ 2 ^ 64 ≤ index + shift.toNat := by
  rw [shifted?, Option.map_eq_none_iff, Word.add?_eq_none_iff, UInt64.toNat_ofNat_of_lt' hindex]

/-- Shifted residues are where the targets are, as long as nothing leaves its range. -/
lemma shifted?_residue (hpos : 0 < s.size) (hsize : s.size ≤ 2 ^ 31 - 1)
    (hshift : shift.toNat + s.size ≤ 2 ^ 64 - 1) (v : Int32) :
    s.shifted? shift (Number.residue v (Int32.ofNat s.size)).toNat =
      some (s.targetOf shift v) := by
  have hmodulus : (Int32.ofNat s.size).toInt = s.size := Int32.toInt_ofNat_of_lt (by omega)
  have hlow : 0 ≤ v.toInt % s.size := Int.emod_nonneg _ (by omega)
  have hhigh : v.toInt % s.size < s.size := Int.emod_lt_of_pos _ (by omega)
  have hsum : (v.toInt % s.size).toNat + shift.toNat < 2 ^ 64 := by omega
  rw [Number.residue, hmodulus, shifted?_of_lt hsum, targetOf]

lemma exists_at?_targetOf (hpos : 0 < s.size) (shift : UInt64) (v : Int32) :
    ∃ rune, s.alphabet.at? (s.targetOf shift v) = some rune :=
  ⟨_, Array.getElem?_eq_getElem (Nat.mod_lt _ hpos)⟩

/-- A place has a failure, or a segment with the text of the place. -/
lemma segmentAt_cases (hpos : 0 < s.size) (hsize : s.size ≤ 2 ^ 31 - 1)
    (hshift : shift.toNat + s.size ≤ 2 ^ 64 - 1) (place : Place) :
    (∃ e, s.segmentAt f r place = .error e ∧ s.failureOf? f r place = some e) ∨
      ∃ segment, s.segmentAt f r place = .ok segment ∧ s.failureOf? f r place = none ∧
        s.segmentText? shift segment = some (s.placeText f r shift place) := by
  cases place with
  | plain c => exact .inr ⟨_, rfl, rfl, rfl⟩
  | lineEnd => exact .inr ⟨_, rfl, rfl, rfl⟩
  | rune j =>
    rw [segmentAt, failureOf?, placeText, Place.number?, Option.bind_some, failureAt?]
    by_cases hj : j ∈ r.skips.passing
    · rw [if_pos hj, if_pos hj, if_pos hj]
      exact .inr ⟨_, rfl, rfl, rfl⟩
    · rw [if_neg hj, if_neg hj, if_neg hj]
      cases s.valueAt f r j with
      | error e => exact .inl ⟨e, rfl, rfl⟩
      | ok v =>
        obtain ⟨rune, hrune⟩ := s.exists_at?_targetOf hpos shift v
        refine .inr ⟨_, rfl, rfl, ?_⟩
        simp only [segmentText?, shifted?_residue hpos hsize hshift v, hrune, Option.map_some,
          Option.getD_some]

/-- So do several places. -/
lemma mapM_segmentAt_cases (hpos : 0 < s.size) (hsize : s.size ≤ 2 ^ 31 - 1)
    (hshift : shift.toNat + s.size ≤ 2 ^ 64 - 1) (places : List Place) :
    (∃ e, places.mapM (s.segmentAt f r) = .error e ∧
        places.findSome? (s.failureOf? f r) = some e) ∨
      ∃ segments, places.mapM (s.segmentAt f r) = .ok segments ∧
        places.findSome? (s.failureOf? f r) = none ∧
        s.textOf? shift segments = some (places.flatMap (s.placeText f r shift)) := by
  induction places with
  | nil => exact .inr ⟨[], rfl, rfl, rfl⟩
  | cons place places ih =>
    rw [List.mapM_cons, List.findSome?_cons, List.flatMap_cons]
    rcases s.segmentAt_cases (f := f) (r := r) hpos hsize hshift place with
      ⟨e, hsegment, hfailure⟩ | ⟨segment, hsegment, hfailure, htext⟩
    · exact .inl ⟨e, by rw [hsegment]; rfl, by rw [hfailure]⟩
    · rw [hsegment, hfailure]
      rcases ih with ⟨e, hrest, hfailures⟩ | ⟨segments, hrest, hfailures, htexts⟩
      · exact .inl ⟨e, by rw [hrest]; rfl, hfailures⟩
      · refine .inr ⟨segment :: segments, by rw [hrest]; rfl, hfailures, ?_⟩
        rw [textOf?, htext, htexts]
        rfl

/-- The segments of a document are those of its places. -/
lemma outcome_segments {first : Rune} (hfirst : s.alphabet.at? 0 = some first) (f : Formula)
    (d : Document) :
    (s.segments f d).outcome [] =
      (Place.ofLines s.alphabet 0 d.content).mapM
        (s.segmentAt f (.ofDocument s.alphabet first d)) := by
  have hstart : Walk.Done s.alphabet first d [] (0, first)
      ⟨0, d.skips.positions, first, false⟩ :=
    ⟨⟨Skips.positionOf_zero.symm, Skips.pendingAt_zero.symm,
      (Reading.previousFrom_self _ (0, first)).symm⟩, nofun, fun _ => ⟨rfl, nofun⟩⟩
  rw [segments, hfirst]
  exact settled_contentSegments f hstart (List.nil_append _).symm []

/-- A residue is below the size of the alphabet, also where the size is no number of thirty-two
bits. -/
lemma residue_lt (hpos : 0 < s.size) (v : Int32) :
    (Number.residue v (Int32.ofNat s.size)).toNat < s.size ∧
      (Number.residue v (Int32.ofNat s.size)).toNat < 2 ^ 64 := by
  have hmodulus : (Int32.ofNat s.size).toInt = (s.size : ℤ).bmod (2 ^ 32) := Int32.toInt_ofNat
  have hvalue : v.toInt < 2 ^ 31 := v.toInt_lt
  rw [Number.residue, hmodulus]
  by_cases hzero : (s.size : ℤ).bmod (2 ^ 32) = 0
  · rw [hzero, Int.emod_zero]
    rw [Int.bmod_def] at hzero
    omega
  · have hlt := Int.emod_lt v.toInt hzero
    have hlow := Int.emod_nonneg v.toInt hzero
    rw [Int.bmod_def] at hlt hlow ⊢
    omega

/-- Every segment of a document is that of one of its places. -/
lemma exists_place {r : Reading} {places : List Place} {segments : List Segment}
    {segment : Segment} (h : places.mapM (s.segmentAt f r) = .ok segments)
    (hsegment : segment ∈ segments) : ∃ place, s.segmentAt f r place = .ok segment := by
  induction places generalizing segments with
  | nil =>
    cases h
    exact absurd hsegment List.not_mem_nil
  | cons place places ih =>
    rw [List.mapM_cons] at h
    cases hplace : s.segmentAt f r place with
    | error e => rw [hplace] at h; cases h
    | ok first =>
      cases hrest : places.mapM (s.segmentAt f r) with
      | error e => rw [hplace, hrest] at h; cases h
      | ok rest =>
        rw [hplace, hrest] at h
        cases h
        rcases List.mem_cons.mp hsegment with rfl | hlater
        · exact ⟨place, hplace⟩
        · exact ih hrest hlater

/-- Every index that a formula computes is one of the alphabet. -/
lemma lt_size_of_mem_segments {d : Document} {segments : List Segment} {index : ℕ}
    (h : (s.segments f d).outcome [] = .ok segments) (hindex : .computed index ∈ segments) :
    index < s.size ∧ index < 2 ^ 64 := by
  cases hfirst : s.alphabet.at? 0 with
  | none =>
    rw [Solver.segments, hfirst] at h
    cases h
    exact absurd hindex List.not_mem_nil
  | some first =>
    obtain ⟨hpos, -⟩ := Array.getElem?_eq_some_iff.mp hfirst
    rw [outcome_segments hfirst] at h
    obtain ⟨place, hplace⟩ := exists_place h hindex
    cases place with
    | plain c => cases hplace
    | lineEnd => cases hplace
    | rune j =>
      rw [segmentAt] at hplace
      split at hplace
      · cases hplace
      · cases hvalue : s.valueAt f (.ofDocument s.alphabet first d) j with
        | error e => rw [hvalue] at hplace; cases hplace
        | ok v =>
          rw [hvalue] at hplace
          cases hplace
          exact residue_lt hpos v

/-- The text is missing just where the sum of the shift and some computed index is. -/
lemma decipher_eq_overflow_iff {d : Document} :
    s.decipher f d shift = .error .overflow ↔
      ∃ segments, (s.segments f d).outcome [] = .ok segments ∧
        ∃ index, .computed index ∈ segments ∧ 2 ^ 64 ≤ index + shift.toNat := by
  have hmissing : ∀ segments, (s.segments f d).outcome [] = .ok segments →
      (s.textOf? shift segments = none ↔
        ∃ index, .computed index ∈ segments ∧ 2 ^ 64 ≤ index + shift.toNat) := by
    intro segments hsegments
    rw [textOf?_eq_none_iff]
    exact exists_congr fun index => and_congr_right fun hindex =>
      shifted?_eq_none_iff (lt_size_of_mem_segments hsegments hindex).2
  rw [decipher]
  cases hsegments : (s.segments f d).outcome [] with
  | error e => exact ⟨nofun, nofun⟩
  | ok segments =>
    simp only [Except.ok.injEq, exists_eq_left', ← hmissing segments hsegments]
    cases s.textOf? shift segments with
    | some text => exact ⟨nofun, nofun⟩
    | none => exact ⟨fun _ => rfl, fun _ => rfl⟩

/-- Nothing is missing without a shift. -/
lemma exists_textOf?_zero (s : Solver) (segments : List Segment) :
    ∃ text, s.textOf? 0 segments = some text := by
  cases htext : s.textOf? 0 segments with
  | some text => exact ⟨text, rfl⟩
  | none =>
    obtain ⟨index, -, hnone⟩ := textOf?_eq_none_iff.mp htext
    rw [shifted?, Option.map_eq_none_iff, Word.add?_eq_none_iff, UInt64.toNat_zero] at hnone
    exact absurd (UInt64.toNat_lt _) (Nat.not_lt_of_le hnone)

/-- The text of a document is that of its places, unless one of its runes has no value. -/
lemma decipher_eq {first : Rune} (hfirst : s.alphabet.at? 0 = some first) (hpos : 0 < s.size)
    (hsize : s.size ≤ 2 ^ 31 - 1) (hshift : shift.toNat + s.size ≤ 2 ^ 64 - 1) (f : Formula)
    (d : Document) :
    s.decipher f d shift =
      match (List.range (runesOf s.alphabet d.content).length).findSome?
          (s.failureAt? f (.ofDocument s.alphabet first d)) with
      | some e => .error (.failure e)
      | none => .ok ((Place.ofLines s.alphabet 0 d.content).flatMap
          (s.placeText f (.ofDocument s.alphabet first d) shift)) := by
  rw [decipher, outcome_segments hfirst, ← findSome?_ofLines]
  rcases mapM_segmentAt_cases (f := f) (r := .ofDocument s.alphabet first d) hpos hsize hshift
      (Place.ofLines s.alphabet 0 d.content) with
    ⟨e, hsegments, hfailure⟩ | ⟨segments, hsegments, hfailure, htext⟩
  · rw [hsegments, hfailure]
  · rw [hsegments, hfailure]
    simp only [htext]

/-- **The text of a document, rune by rune.** Each rune is replaced on its own: it passes through
as it is, or goes to where the value of the formula at its number points under the shift. What is
no rune is copied. If runes have no value, the first of them decides the failure. -/
theorem decipher_eq_placeText {source : String} {s : Solver} {d : Document} {shift : UInt64}
    (hparse : (Alphabet.parse source).2 = .ok s.alphabet) (hsize : s.size ≤ 2 ^ 31 - 1)
    (hrunes : (runesOf s.alphabet d.content).length < 2 ^ 31)
    (hshift : shift.toNat + s.size ≤ 2 ^ 64 - 1) (f : Formula) :
    ∃ first, s.alphabet.at? 0 = some first ∧
      (s.decipher f d shift =
        match (List.range (runesOf s.alphabet d.content).length).findSome?
            (s.failureAt? f (.ofDocument s.alphabet first d)) with
        | some e => .error (.failure e)
        | none => .ok ((Place.ofLines s.alphabet 0 d.content).flatMap
            (s.placeText f (.ofDocument s.alphabet first d) shift))) ∧
      (∀ j < (runesOf s.alphabet d.content).length,
        ((Reading.ofDocument s.alphabet first d).contextAt j).position.toInt =
          d.skips.positionOf j) ∧
      ∀ v, ∃ rune, s.alphabet.at? (s.targetOf shift v) = some rune := by
  obtain ⟨hpos, first, hfirst⟩ := Alphabet.exists_first_of_parse hparse
  refine ⟨first, hfirst, s.decipher_eq hfirst hpos hsize hshift f d, fun j hj => ?_,
    s.exists_at?_targetOf hpos shift⟩
  have hle : d.skips.positionOf j ≤ j := Nat.sub_le _ _
  have hlt : d.skips.positionOf j < 2 ^ 31 := by omega
  exact Int32.toInt_ofNat_of_lt hlt

end Solver

/-- A line that starts with no rune, and one that seeds in the middle of the text: what is judged of
it starts with a rune, behind a digit and a bracket. -/
def sampleDocument : Document :=
  ⟨["skips 1", "-BA", "7[CAB"], ⟨[1], List.pairwise_singleton _ _⟩⟩

def sampleSolver : Solver := ⟨Alphabet.sample, ⟨#[], #[]⟩, ⟨2, 0, ∅⟩, true⟩

lemma content_sampleDocument : sampleDocument.content = ["-BA".toList, "7[CAB".toList] := by
  decide +kernel

lemma runesOf_sample (lines : List (List Char)) :
    runesOf Alphabet.sample lines =
      lines.flatten.filterMap fun c => Alphabet.sampleRunes.reverse.find? (·.symbol == c) := by
  rw [runesOf, funext Alphabet.rune?_sample]

lemma ofDocument_sample (first : Rune) :
    Reading.ofDocument Alphabet.sample first sampleDocument =
      ⟨first, runesOf Alphabet.sample sampleDocument.content, sampleDocument.skips,
        some (2, ⟨'C', 2, 5, "C"⟩)⟩ := by
  have hnone : seed? Alphabet.sample "-BA".toList = none := (Alphabet.rune?_sample '-').trans rfl
  have hsome : seed? Alphabet.sample "7[CAB".toList = some ⟨'C', 2, 5, "C"⟩ :=
    (Alphabet.rune?_sample 'C').trans rfl
  rw [Reading.ofDocument, seeding?, content_sampleDocument]
  simp only [List.findSome?_cons, List.takeWhile_cons, runesOf_sample, hnone, hsome]
  rfl

lemma ofLines_sample :
    Place.ofLines Alphabet.sample 0 sampleDocument.content =
      [.plain '-', .rune 0, .rune 1, .lineEnd, .plain '7', .plain '[', .rune 2, .rune 3, .rune 4,
        .lineEnd] := by
  rw [content_sampleDocument]
  simp [Place.ofLines, Place.ofLine, Alphabet.rune?_sample, Alphabet.sampleRunes, List.find?]

/-- The rune after the skip takes the seeding for its previous rune. -/
theorem decipher_eq_placeText_sample :
    (Alphabet.parse Alphabet.sampleTable).2 = .ok sampleSolver.alphabet ∧
      sampleSolver.decipher (.ofText "prevp") sampleDocument 1 = .ok "-BA\n7[AAB\n".toList := by
  have halphabet : sampleSolver.alphabet = Alphabet.sample := rfl
  have hrunes : (runesOf Alphabet.sample sampleDocument.content).length = 5 := by
    rw [content_sampleDocument, runesOf_sample]
    rfl
  obtain ⟨first, hfirst, htext, -, -⟩ :=
    @Solver.decipher_eq_placeText Alphabet.sampleTable sampleSolver sampleDocument 1
      Alphabet.parse_sampleTable (by decide) (by rw [halphabet, hrunes]; decide) (by decide)
      (.ofText "prevp")
  obtain rfl : ⟨'A', 0, 2, "A"⟩ = first := Option.some.inj hfirst
  refine ⟨Alphabet.parse_sampleTable, htext.trans ?_⟩
  rw [halphabet, ofDocument_sample, ofLines_sample, content_sampleDocument, runesOf_sample]
  rfl

end RuneSolver.Cipher
