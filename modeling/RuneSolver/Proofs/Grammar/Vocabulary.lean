import Mathlib.Data.List.Nodup
import Mathlib.Data.List.Perm.Subperm
import RuneSolver.Formula.Token
import RuneSolver.Grammar.Vocabulary

/-!
Vocabularies of selected tokens. Each of their tokens is selected, stands in its own category and
comes once, so a vocabulary has no more tokens of a category than there are symbols.
-/

namespace RuneSolver

/-! ### Entries by name -/

variable {α : Type} {entries : List (String × α)} {name : String} {a : α}

/-- What is found under a name stands there. -/
lemma mem_of_lookup (h : entries.lookup name = some a) : (name, a) ∈ entries := by
  obtain ⟨before, after, rfl, -⟩ := List.lookup_eq_some_iff.mp h
  exact List.mem_append_right before List.mem_cons_self

lemma isSome_lookup_iff : (entries.lookup name).isSome ↔ name ∈ entries.map Prod.fst := by
  simp only [List.lookup_isSome_iff, beq_iff_eq, List.mem_map, @eq_comm _ name]

/-- Names are found as before when what stands under them is mapped. -/
lemma lookup_map {β : Type} (f : α → β) (entries : List (String × α)) (name : String) :
    (entries.map fun (n, a) => (n, f a)).lookup name = (entries.lookup name).map f := by
  induction entries with
  | nil => rfl
  | cons entry entries ih =>
    obtain ⟨n, a⟩ := entry
    rw [List.map_cons, List.lookup_cons, List.lookup_cons]
    cases name == n with
    | true => rfl
    | false => exact ih

/-! ### Selected tokens -/

/-- All symbols of a category. -/
def Category.symbols : Category → List String
  | operation => Operation.all.map (·.symbol)
  | single => Single.all.map (·.symbol)
  | special => Special.all.map (·.symbol)

lemma Category.mem_symbols {symbol : String} {c : Category} (h : category? symbol = some c) :
    symbol ∈ c.symbols := by
  have hrows : ∀ row ∈ registry, row.1 ∈ row.2.symbols := by decide
  exact hrows _ (mem_of_lookup h)

namespace Grammar.Vocabulary

/-- The tokens of a category. -/
def tokensOf (v : Vocabulary) : Category → List String
  | .operation => v.operations
  | .single => v.singles
  | .special => v.specials

/-- The tokens of every category are selected ones of that category, each of them once. -/
structure Selected (selection : List String) (v : Vocabulary) : Prop where
  mem {c : Category} {token : String} (h : token ∈ v.tokensOf c) :
    token ∈ selection ∧ category? token = some c
  nodup (c : Category) : (v.tokensOf c).Nodup

variable {selection : List String} {v : Vocabulary}

lemma mem_addOnce {tokens : List String} {token other : String} :
    other ∈ addOnce tokens token ↔ other ∈ tokens ∨ other = token := by
  rw [addOnce]
  split
  · next h =>
    have htoken : token ∈ tokens := by simpa using h
    exact ⟨Or.inl, fun h' => h'.elim id fun heq => heq ▸ htoken⟩
  · rw [List.mem_append, List.mem_singleton]

lemma nodup_addOnce {tokens : List String} (h : tokens.Nodup) (token : String) :
    (addOnce tokens token).Nodup := by
  rw [addOnce]
  split
  · exact h
  · next hnew =>
    have hfresh : token ∉ tokens := by simpa using hnew
    exact List.nodup_append_comm.mp (List.nodup_cons.mpr ⟨hfresh, h⟩)

lemma tokensOf_insert (v : Vocabulary) (token : String) (c c' : Category) :
    (v.insert token c).tokensOf c' =
      if c' = c then addOnce (v.tokensOf c) token else v.tokensOf c' := by
  cases c <;> cases c' <;> rfl

lemma Selected.insert (h : Selected selection v) {token : String} {c : Category}
    (htoken : token ∈ selection) (hc : category? token = some c) :
    Selected selection (v.insert token c) where
  mem {c' other} hother := by
    rw [tokensOf_insert] at hother
    split at hother
    · next heq =>
      rcases mem_addOnce.mp hother with hold | rfl
      · exact heq ▸ h.mem hold
      · exact ⟨htoken, heq ▸ hc⟩
    · exact h.mem hother
  nodup c' := by
    rw [tokensOf_insert]
    split
    · exact nodup_addOnce (h.nodup c) token
    · exact h.nodup c'

lemma Selected.addAll (h : Selected selection v) {tokens : List String} {v' : Vocabulary}
    (hsub : ∀ token ∈ tokens, token ∈ selection) (hadd : v.addAll tokens = .ok v') :
    Selected selection v' := by
  induction tokens generalizing v with
  | nil => cases hadd; exact h
  | cons token tokens ih =>
    rw [Vocabulary.addAll] at hadd
    split at hadd
    · cases hadd
    · next c hc =>
      have htoken := hsub token List.mem_cons_self
      exact ih (h.insert htoken hc) (fun t ht => hsub t (List.mem_cons_of_mem token ht)) hadd

/-- **A vocabulary is what is selected.** -/
theorem selected_ofTokens (h : ofTokens selection = .ok v) : Selected selection v := by
  have hempty : ∀ c, empty.tokensOf c = [] := by rintro (_ | _ | _) <;> rfl
  have hselected : Selected selection empty :=
    ⟨fun ht => absurd (hempty _ ▸ ht) List.not_mem_nil, fun c => hempty c ▸ List.nodup_nil⟩
  exact hselected.addAll (fun _ ht => ht) h

lemma Selected.length_le (h : Selected selection v) (c : Category) :
    (v.tokensOf c).length ≤ c.symbols.length :=
  (List.subperm_of_subset (h.nodup c) fun _ ht => Category.mem_symbols (h.mem ht).2).length_le

end Grammar.Vocabulary

end RuneSolver
