import Mathlib.Algebra.BigOperators.Group.Finset.Basic
import Mathlib.Algebra.Ring.Nat
import Mathlib.Data.List.Forall2
import Std.Data.HashMap.Lemmas

/-!
Tables that are read line by line and filled row by row. Reading succeeds just if each line that is
not passed over holds a row. A key has the value of its last row, and the sum of all values counts
each key once.
-/

namespace RuneSolver

variable {α κ β : Type}

/-! ### Lines -/

/-- Each line holds a row just if there are rows that the lines hold. -/
lemma exists_forall₂_iff {R : α → β → Prop} {lines : List α} :
    (∃ rows, List.Forall₂ R lines rows) ↔ ∀ line ∈ lines, ∃ row, R line row := by
  induction lines with
  | nil => exact ⟨fun _ => nofun, fun _ => ⟨[], .nil⟩⟩
  | cons line lines ih =>
    rw [List.forall_mem_cons, ← ih]
    constructor
    · rintro ⟨_, _ | ⟨hrow, hrows⟩⟩
      exact ⟨⟨_, hrow⟩, _, hrows⟩
    · rintro ⟨⟨row, hrow⟩, rows, hrows⟩
      exact ⟨row :: rows, .cons hrow hrows⟩

section

variable {ε σ : Type} {read : σ → List (List Char × ℕ) → Except ε σ} {carries : List Char → Bool}
  {entry : ℕ → List Char → Except ε α} {add : σ → α → σ} {Holds : List Char → α → Prop}

/-- Numbered lines are read one after the other. Some are passed over, and the row of each other one
is added to what has been read so far. -/
structure ReadsRows (read : σ → List (List Char × ℕ) → Except ε σ) (carries : List Char → Bool)
    (entry : ℕ → List Char → Except ε α) (add : σ → α → σ) : Prop where
  nil : ∀ s, read s [] = .ok s
  cons : ∀ s line lines, read s (line :: lines) =
    if carries line.1 then (entry line.2 line.1).bind fun row => read (add s row) lines
    else read s lines

/-- Lines are read when each of them that is not passed over holds a row. -/
lemma ReadsRows.eq_ok_iff (h : ReadsRows read carries entry add)
    (hentry : ∀ {number line row}, entry number line = .ok row ↔ Holds line row)
    {lines : List (List Char × ℕ)} {s last : σ} :
    read s lines = .ok last ↔
      ∃ rows, List.Forall₂ Holds ((lines.map Prod.fst).filter carries) rows ∧
        rows.foldl add s = last := by
  -- by the lines, from anything read before: the first row changes what the others are added to
  induction lines generalizing s with
  | nil =>
    rw [h.nil, Except.ok.injEq]
    constructor
    · rintro rfl
      exact ⟨[], .nil, rfl⟩
    · rintro ⟨_, _ | _, hlast⟩
      exact hlast
  | cons line lines ih =>
    rw [h.cons, List.map_cons]
    cases hcarries : carries line.1 with
    | false =>
      rw [if_neg Bool.false_ne_true, List.filter_cons_of_neg (by simp [hcarries])]
      exact ih
    | true =>
      rw [if_pos rfl, List.filter_cons_of_pos hcarries]
      constructor
      · intro hread
        cases hrow : entry line.2 line.1 with
        | error e =>
          rw [hrow] at hread
          cases hread
        | ok row =>
          rw [hrow] at hread
          obtain ⟨rows, hrows, hlast⟩ := ih.mp hread
          exact ⟨row :: rows, .cons (hentry.mp hrow) hrows, hlast⟩
      · rintro ⟨_, hrows, hlast⟩
        obtain ⟨row, rows, hrow, hrest, rfl⟩ := List.forall₂_cons_left_iff.mp hrows
        rw [hentry.mpr hrow]
        exact ih.mpr ⟨rows, hrest, hlast⟩

end

/-! ### Keys and sums -/

variable [BEq κ] [LawfulBEq κ] [Hashable κ]

/-- Of the rows of one key the last one counts. -/
lemma getElem?_foldl_insert (key : α → κ) (value : α → β) (table : Std.HashMap κ β)
    (rows : List α) (k : κ) :
    (rows.foldl (fun table r => table.insert (key r) (value r)) table)[k]? =
      ((rows.reverse.find? (key · == k)).map value).or table[k]? := by
  induction rows generalizing table with
  | nil => rfl
  | cons row rows ih =>
    rw [List.foldl_cons, ih, List.reverse_cons, List.find?_append, Option.map_or, Option.or_assoc]
    congr 1
    rw [Std.HashMap.getElem?_insert, List.find?_singleton]
    cases key row == k <;> rfl

/-- The sum over a table takes the value of every key once. -/
lemma sum_map_snd_toList [DecidableEq κ] (table : Std.HashMap κ UInt64) :
    ((table.toList.map Prod.snd).map UInt64.toNat).sum =
      ∑ k ∈ table.keys.toFinset, (table[k]?.getD 0).toNat := by
  have hwords : (table.toList.map Prod.snd).map UInt64.toNat =
      table.keys.map fun k => (table[k]?.getD 0).toNat := by
    rw [← Std.HashMap.map_fst_toList_eq_keys, List.map_map, List.map_map, List.map_inj_left]
    intro entry hentry
    have hget : table[entry.1]? = some entry.2 :=
      Std.HashMap.mem_toList_iff_getElem?_eq_some.mp hentry
    simp [hget]
  rw [hwords, List.sum_toFinset _ Std.HashMap.nodup_keys]

end RuneSolver
