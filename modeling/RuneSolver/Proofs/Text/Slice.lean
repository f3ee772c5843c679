import Mathlib.Data.Int.Notation
import Mathlib.Data.List.Basic
import RuneSolver.Text.Part

/-!
Pieces of texts by their bytes. Main statement: between the offsets of two characters, the later of
which may be the end of the text, lie the characters from the one up to the other.
-/

namespace RuneSolver.Text

lemma utf8ByteSize_cons (c : Char) (cs : List Char) :
    (String.ofList (c :: cs)).utf8ByteSize = c.utf8Size + (String.ofList cs).utf8ByteSize := by
  rw [String.ofList_cons, String.utf8ByteSize_append, String.utf8ByteSize_singleton]

/-! ### Boundaries -/

lemma length_offsetsFrom (offset : ℕ) (cs : List Char) :
    (offsetsFrom offset cs).length = cs.length := by
  induction cs generalizing offset with
  | nil => rfl
  | cons c cs ih => rw [offsetsFrom, List.length_cons, ih, List.length_cons]

/-- A character begins behind the bytes of all characters before it. -/
lemma getElem?_offsetsFrom (offset : ℕ) {cs : List Char} {i : ℕ} (h : i < cs.length) :
    (offsetsFrom offset cs)[i]? =
      some (offset + (String.ofList (cs.take i)).utf8ByteSize) := by
  induction cs generalizing offset i with
  | nil => cases h
  | cons c cs ih =>
    cases i with
    | zero => rfl
    | succ i =>
      rw [offsetsFrom, List.getElem?_cons_succ, ih _ (Nat.lt_of_succ_lt_succ h),
        List.take_succ_cons, utf8ByteSize_cons, Nat.add_assoc]

variable {text : String} {i j : ℕ}

lemma size_boundaries (text : String) : (boundaries text).size = text.toList.length + 1 := by
  rw [boundaries, Array.size_push, List.size_toArray, length_offsetsFrom]

lemma getElem?_boundaries (h : i ≤ text.toList.length) :
    (boundaries text)[i]? = some (String.ofList (text.toList.take i)).utf8ByteSize := by
  rw [boundaries, Array.getElem?_push, List.size_toArray, length_offsetsFrom]
  split
  case isTrue hend => rw [hend, List.take_length, String.ofList_toList]
  case isFalse hend =>
    rw [List.getElem?_toArray, getElem?_offsetsFrom 0 (Nat.lt_of_le_of_ne h hend), Nat.zero_add]

/-! ### Pieces -/

/-- The bytes between two offsets lie inside of the text, begin and end between characters, and
encode the piece. -/
structure Cuts (text : String) (first last : ℕ) (piece : List Char) : Prop where
  first_le_last : first ≤ last
  last_le_size : last ≤ text.utf8ByteSize
  isValid_first : String.Pos.Raw.IsValid text ⟨first⟩
  isValid_last : String.Pos.Raw.IsValid text ⟨last⟩
  slice?_eq : slice? text first last = some (String.ofList piece)

lemma isValid_append (before after : String) :
    String.Pos.Raw.IsValid (before ++ after) ⟨before.utf8ByteSize⟩ :=
  String.Pos.Raw.isValid_iff_exists_append.mpr ⟨before, after, rfl, rfl⟩

/-- What stands between two other texts is the piece between their bytes. -/
lemma cuts_append (before piece after : String) :
    Cuts (before ++ piece ++ after) before.utf8ByteSize (before ++ piece).utf8ByteSize
      piece.toList := by
  have hfirst : String.Pos.Raw.IsValid (before ++ piece ++ after) ⟨before.utf8ByteSize⟩ := by
    rw [String.append_assoc]
    exact isValid_append before (piece ++ after)
  have hlast := isValid_append (before ++ piece) after
  have hle : before.utf8ByteSize ≤ (before ++ piece).utf8ByteSize := by
    rw [String.utf8ByteSize_append]
    exact Nat.le_add_right _ _
  refine ⟨hle, ?_, hfirst, hlast, ?_⟩
  · rw [String.utf8ByteSize_append (s := before ++ piece)]
    exact Nat.le_add_right _ _
  · rw [slice?, dif_pos ⟨hle, hfirst, hlast⟩, String.ofList_toList]
    refine congrArg some (String.toByteArray_inj.mp ?_)
    change (before ++ piece ++ after).toByteArray.extract before.utf8ByteSize
      (before ++ piece).utf8ByteSize = piece.toByteArray
    rw [String.toByteArray_append, ← String.size_toByteArray, ← String.size_toByteArray,
      ByteArray.extract_append_size_left, String.toByteArray_append, ByteArray.size_append,
      ByteArray.extract_append_eq_right rfl rfl]

/-- **Between the offsets of characters lie the characters.** -/
theorem cuts_boundaries (hij : i ≤ j) (hj : j ≤ text.toList.length) :
    ∃ first last, (boundaries text)[i]? = some first ∧ (boundaries text)[j]? = some last ∧
      Cuts text first last ((text.toList.drop i).take (j - i)) := by
  refine ⟨_, _, getElem?_boundaries (Nat.le_trans hij hj), getElem?_boundaries hj, ?_⟩
  have hpiece : text.toList.take j = text.toList.take i ++ (text.toList.drop i).take (j - i) := by
    rw [← List.take_add, Nat.add_sub_cancel' hij]
  have hcuts := cuts_append (.ofList (text.toList.take i))
    (.ofList ((text.toList.drop i).take (j - i))) (.ofList (text.toList.drop j))
  rwa [← String.ofList_append, ← hpiece, ← String.ofList_append, List.take_append_drop,
    String.ofList_toList, String.toList_ofList] at hcuts

end RuneSolver.Text
