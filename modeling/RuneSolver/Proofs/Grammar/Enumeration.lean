import Mathlib.Algebra.GroupWithZero.Nat
import Mathlib.Data.List.Basic
import Mathlib.Data.List.Forall2
import Mathlib.Data.List.GetD
import RuneSolver.Grammar.Enumeration

/-!
Products and concatenations of enumerations, seen through the lists of their items. A position in
a product is a number in a mixed radix: the strides cut it into digits, one for each factor, and
counting upward runs through the choices of one item from every factor.
-/

namespace RuneSolver.Grammar

/-- The choices of one text from each list. The last list changes fastest. -/
def choices : List (List String) → List (List String)
  | [] => [[]]
  | texts :: others => texts.flatMap fun text => (choices others).map (text :: ·)

/-- The texts of a choice are one of each list. -/
lemma mem_choices {lists : List (List String)} {choice : List String} :
    choice ∈ choices lists ↔ List.Forall₂ (· ∈ ·) choice lists := by
  induction lists generalizing choice with
  | nil => simp [choices]
  | cons texts others ih =>
    simp only [choices, List.mem_flatMap, List.mem_map, ih, List.forall₂_cons_right_iff]
    constructor
    · rintro ⟨text, htext, rest, hrest, rfl⟩
      exact ⟨text, rest, htext, hrest, rfl⟩
    · rintro ⟨text, rest, htext, hrest, rfl⟩
      exact ⟨text, htext, rest, hrest, rfl⟩

namespace Enumeration

/-! ### Products -/

/-- Counting up to a product is counting in rows. -/
lemma map_range_mul {α : Type} (f : ℕ → α) (m n : ℕ) :
    (List.range (m * n)).map f =
      (List.range n).flatMap fun q => (List.range m).map fun r => f (m * q + r) := by
  induction n with
  | zero => simp
  | succ n ih =>
    rw [Nat.mul_succ, List.range_add, List.map_append, ih, List.range_succ, List.flatMap_append]
    simp

lemma strides_cons {factor : Enumeration} {factors : List Enumeration} {strides : List ℕ}
    {size : ℕ} (h : strides? (factor :: factors) = some (strides, size)) :
    ∃ rest m, strides? factors = some (rest, m) ∧ strides = m :: rest ∧
      size = m * factor.size := by
  rw [strides?] at h
  rcases hs : strides? factors with _ | ⟨rest, m⟩
  · simp [hs] at h
  · simp only [hs] at h
    split at h
    · obtain ⟨hstrides, hsize⟩ : m :: rest = strides ∧ m * factor.size = size := by simpa using h
      exact ⟨rest, m, rfl, hstrides.symm, hsize.symm⟩
    · simp at h

/-- The size of a product is a period of what its factors contribute. -/
lemma components_add {factors : List Enumeration} {strides : List ℕ} {size : ℕ}
    (h : strides? factors = some (strides, size)) (q i : ℕ) :
    components factors strides (size * q + i) = components factors strides i := by
  induction factors generalizing strides size q with
  | nil => simp [components]
  | cons factor factors ih =>
    obtain ⟨rest, m, hs, rfl, rfl⟩ := strides_cons h
    have htail := ih hs (factor.size * q)
    rw [← Nat.mul_assoc] at htail
    have hdigit : (m * factor.size * q + i) / m % factor.size = i / m % factor.size := by
      rcases Nat.eq_zero_or_pos m with rfl | hm
      · simp
      · rw [Nat.mul_assoc, Nat.mul_add_div hm, Nat.mul_add_mod]
    simp only [components, List.zipWith_cons_cons, hdigit] at htail ⊢
    rw [htail]

/-- **Counting in the mixed radix of the strides runs through all choices in order.** -/
theorem map_components {factors : List Enumeration} {strides : List ℕ} {size : ℕ}
    (h : strides? factors = some (strides, size)) :
    (List.range size).map (components factors strides) = choices (factors.map toList) := by
  induction factors generalizing strides size with
  | nil =>
    obtain ⟨rfl, rfl⟩ : [] = strides ∧ 1 = size := by simpa [strides?] using h
    rfl
  | cons factor factors ih =>
    obtain ⟨rest, m, hs, rfl, rfl⟩ := strides_cons h
    have hrow : ∀ q < factor.size, ∀ r < m,
        components (factor :: factors) (m :: rest) (m * q + r) =
          factor.item q :: components factors rest r := by
      intro q hq r hr
      have hdigit : (m * q + r) / m % factor.size = q := by
        rw [Nat.mul_add_div (by omega), Nat.div_eq_of_lt hr, Nat.add_zero, Nat.mod_eq_of_lt hq]
      have htail := components_add hs q r
      simp only [components, List.zipWith_cons_cons, hdigit] at htail ⊢
      rw [htail]
    rw [map_range_mul, List.map_cons, choices, toList, List.flatMap_map, ← ih hs]
    refine List.flatMap_congr fun q hq => ?_
    rw [List.map_map]
    refine List.map_congr_left fun r hr => ?_
    exact hrow q (List.mem_range.mp hq) r (List.mem_range.mp hr)

/-- The items of a product are the choices from its factors, joined by spaces. -/
theorem toList_product {factors : List Enumeration} {e : Enumeration}
    (h : product? factors = some e) :
    e.toList = (choices (factors.map toList)).map (" ".intercalate ·) := by
  rw [product?] at h
  rcases hs : strides? factors with _ | ⟨strides, size⟩
  · simp [hs] at h
  · obtain rfl : _ = e := by simpa [hs] using h
    rw [← map_components hs, List.map_map]
    rfl

lemma exists_strides {factors : List Enumeration} {bounds : List ℕ}
    (h : List.Forall₂ (fun factor bound => factor.size ≤ bound) factors bounds)
    (hpos : ∀ bound ∈ bounds, 0 < bound) (hlt : bounds.prod < sizeLimit) :
    ∃ strides size, strides? factors = some (strides, size) ∧ size ≤ bounds.prod := by
  induction h with
  | nil => exact ⟨[], 1, rfl, by simp⟩
  | @cons factor bound factors bounds hbound _ ih =>
    have hhead : 0 < bound := hpos bound (by simp)
    rw [List.prod_cons] at hlt ⊢
    have htail : bounds.prod ≤ bound * bounds.prod := Nat.le_mul_of_pos_left _ hhead
    obtain ⟨strides, size, hstrides, hsize⟩ :=
      ih (fun b hb => hpos b (List.mem_cons_of_mem bound hb)) (by omega)
    have hprod : size * factor.size ≤ bound * bounds.prod := by
      rw [Nat.mul_comm bound]
      exact Nat.mul_le_mul hsize hbound
    refine ⟨size :: strides, size * factor.size, ?_, hprod⟩
    simp only [strides?, hstrides]
    rw [if_pos (by omega)]

/-- A product exists when bounds of its factors keep it below the limit. -/
theorem exists_product {factors : List Enumeration} {bounds : List ℕ}
    (h : List.Forall₂ (fun factor bound => factor.size ≤ bound) factors bounds)
    (hpos : ∀ bound ∈ bounds, 0 < bound) (hlt : bounds.prod < sizeLimit) :
    ∃ e, product? factors = some e ∧ e.size ≤ bounds.prod := by
  obtain ⟨strides, size, hstrides, hsize⟩ := exists_strides h hpos hlt
  refine ⟨⟨size, fun i => " ".intercalate (components factors strides i)⟩, ?_, hsize⟩
  rw [product?, hstrides]

/-! ### Concatenations -/

lemma totalSize_eq {start : ℕ} {parts : List Enumeration} {size : ℕ}
    (h : totalSize? start parts = some size) : size = start + (parts.flatMap toList).length := by
  induction parts generalizing start with
  | nil => simpa [totalSize?] using h.symm
  | cons part parts ih =>
    rw [totalSize?] at h
    split at h
    · rw [ih h, List.flatMap_cons, List.length_append, length_toList, Nat.add_assoc]
    · simp at h

lemma itemOf_eq (parts : List Enumeration) (i : ℕ) :
    itemOf parts i = (parts.flatMap toList).getD i "" := by
  induction parts generalizing i with
  | nil => simp [itemOf]
  | cons part parts ih =>
    rw [itemOf, List.flatMap_cons]
    split
    · next h =>
      rw [List.getD_append _ _ _ _ (by simpa using h), List.getD_eq_getElem?_getD,
        getElem?_toList, get?, if_pos h, Option.getD_some]
    · next h =>
      rw [ih, List.getD_append_right _ _ _ _ (by simpa using Nat.le_of_not_lt h), length_toList]

/-- The items of a concatenation are those of its parts, one part after the other. -/
theorem toList_concat {parts : List Enumeration} {e : Enumeration} (h : concat? parts = some e) :
    e.toList = parts.flatMap toList := by
  rw [concat?] at h
  rcases hs : totalSize? 0 parts with _ | size
  · simp [hs] at h
  · obtain rfl : _ = e := by simpa [hs] using h
    have hsize := totalSize_eq hs
    refine List.ext_getElem? fun i => ?_
    simp only [getElem?_toList, get?]
    split
    · next hi =>
      have hlen : i < (parts.flatMap toList).length := by omega
      rw [itemOf_eq, List.getD_eq_getElem _ _ hlen, List.getElem?_eq_getElem hlen]
    · next hi =>
      have hlen : (parts.flatMap toList).length ≤ i := by omega
      rw [List.getElem?_eq_none hlen]

/-- A concatenation exists when bounds of its parts keep it below the limit. -/
theorem exists_concat {parts : List Enumeration} {bounds : List ℕ}
    (h : List.Forall₂ (fun part bound => part.size ≤ bound) parts bounds)
    (hlt : bounds.sum < sizeLimit) : ∃ e, concat? parts = some e ∧ e.size ≤ bounds.sum := by
  have htotal : ∀ start, start + bounds.sum < sizeLimit →
      ∃ size, totalSize? start parts = some size ∧ size ≤ start + bounds.sum := by
    clear hlt
    induction h with
    | nil => exact fun start _ => ⟨start, rfl, by simp⟩
    | @cons part bound parts bounds hbound _ ih =>
      intro start hstart
      rw [List.sum_cons] at hstart ⊢
      obtain ⟨size, hsize, hle⟩ := ih (start + part.size) (by omega)
      refine ⟨size, ?_, by omega⟩
      rw [totalSize?, if_pos (by omega), hsize]
  obtain ⟨size, hsize, hle⟩ := htotal 0 (by omega)
  rw [Nat.zero_add] at hle
  refine ⟨⟨size, itemOf parts⟩, ?_, hle⟩
  rw [concat?, hsize]

end Enumeration

end RuneSolver.Grammar
