import Mathlib.Data.List.Basic
import Mathlib.Data.List.Induction
import RuneSolver.Equivalence.Fingerprint
import RuneSolver.Proofs.Formula.Machine

/-!
The earliest of each class. An elimination goes through the members in order and keeps those whose
key has not come before, so what it does to one more member at the end decides all the rest: what
is kept, that keys come once, and that a longer list only adds to what is kept. For formulas the key
is the fingerprint, and equal fingerprints are agreement at every point. That all evaluations share
one stack makes no difference.
-/

namespace RuneSolver.Equivalence

/-! ### Members with new keys -/

section

variable {σ α β : Type} [BEq β] [Hashable β] {key : α → β}

lemma keepNew_sublist (seen : Std.HashSet β) (l : List α) : (keepNew key seen l).Sublist l := by
  induction l generalizing seen with
  | nil => exact List.Sublist.slnil
  | cons a l ih =>
    rw [keepNew]
    split
    · exact (ih seen).cons a
    · exact (ih _).cons_cons a

/-- The first member is kept. -/
lemma head?_keepNew (l : List α) : (keepNew key ∅ l).head? = l.head? := by
  cases l with
  | nil => rfl
  | cons a l =>
    rw [keepNew, Std.HashSet.contains_empty, if_neg nofun, List.head?_cons, List.head?_cons]

/-- Where the keys are the same from any state, the state does not count. -/
lemma keepNewOn_fst {keyOn : α → StateM σ β} (hkey : ∀ a s, (keyOn a s).1 = key a)
    (seen : Std.HashSet β) (l : List α) (s : σ) :
    (keepNewOn keyOn seen l s).1 = keepNew key seen l := by
  induction l generalizing seen s with
  | nil => rfl
  | cons a l ih =>
    have hstep : keepNewOn keyOn seen (a :: l) s =
        if seen.contains (keyOn a s).1 then keepNewOn keyOn seen l (keyOn a s).2
        else
          ((a :: (keepNewOn keyOn (seen.insert (keyOn a s).1) l (keyOn a s).2).1),
            (keepNewOn keyOn (seen.insert (keyOn a s).1) l (keyOn a s).2).2) := by
      rw [keepNewOn]
      change (if seen.contains (keyOn a s).1 then _ else _ : StateM σ (List α)) (keyOn a s).2 = _
      split <;> rfl
    rw [hstep, hkey, keepNew]
    split
    · exact ih seen _
    · rw [ih]

variable [LawfulBEq β]

/-- One more member at the end is kept when its key has not come before. -/
lemma keepNew_append_singleton (seen : Std.HashSet β) (l : List α) (a : α) :
    keepNew key seen (l ++ [a]) =
      keepNew key seen l ++
        if seen.contains (key a) || l.any (key · == key a) then [] else [a] := by
  induction l generalizing seen with
  | nil => simp [keepNew]
  | cons b l ih =>
    rw [List.cons_append, keepNew, keepNew, List.any_cons]
    split
    · next hseen =>
      -- the key of a dropped member is seen, so it adds nothing to the condition
      rw [ih]
      cases hkey : key b == key a with
      | false => rw [Bool.false_or]
      | true =>
        rw [eq_of_beq hkey] at hseen
        simp only [hseen, Bool.true_or]
    · rw [ih, List.cons_append, Std.HashSet.contains_insert, Bool.or_assoc,
        Bool.or_left_comm]

lemma keepNew_append_of_mem {l : List α} {a b : α} (hb : b ∈ l) (h : key b = key a) :
    keepNew key ∅ (l ++ [a]) = keepNew key ∅ l := by
  have hany : l.any (key · == key a) = true := List.any_eq_true.mpr ⟨b, hb, beq_iff_eq.mpr h⟩
  rw [keepNew_append_singleton, hany, Bool.or_true, if_pos rfl, List.append_nil]

lemma keepNew_append_of_new {l : List α} {a : α} (h : ∀ b ∈ l, key b ≠ key a) :
    keepNew key ∅ (l ++ [a]) = keepNew key ∅ l ++ [a] := by
  have hany : l.any (key · == key a) = false :=
    List.any_eq_false.mpr fun b hb => by simpa using h b hb
  rw [keepNew_append_singleton, hany, Std.HashSet.contains_empty, Bool.or_false, if_neg nofun]

/-- A longer list only adds to what is kept. -/
lemma keepNew_prefix (l more : List α) : keepNew key ∅ l <+: keepNew key ∅ (l ++ more) := by
  induction more using List.reverseRecOn with
  | nil => simp
  | append_singleton more a ih =>
    rw [← List.append_assoc, keepNew_append_singleton]
    exact ih.trans (List.prefix_append _ _)

lemma pairwise_keepNew (l : List α) :
    (keepNew key ∅ l).Pairwise fun a b => key a ≠ key b := by
  induction l using List.reverseRecOn with
  | nil => exact List.Pairwise.nil
  | append_singleton l a ih =>
    by_cases h : ∃ b ∈ l, key b = key a
    · obtain ⟨b, hb, hkey⟩ := h
      rw [keepNew_append_of_mem hb hkey]
      exact ih
    · have hnew : ∀ b ∈ l, key b ≠ key a := fun b hb hkey => h ⟨b, hb, hkey⟩
      rw [keepNew_append_of_new hnew, List.pairwise_append]
      refine ⟨ih, List.pairwise_singleton _ a, fun b hb a' ha' => ?_⟩
      rw [List.mem_singleton.mp ha']
      exact hnew b ((keepNew_sublist ∅ l).subset hb)

/-- Members with different keys are all kept. -/
lemma keepNew_of_pairwise {l : List α} (h : l.Pairwise fun a b => key a ≠ key b) :
    keepNew key ∅ l = l := by
  induction l using List.reverseRecOn with
  | nil => rfl
  | append_singleton l a ih =>
    obtain ⟨hl, -, hlast⟩ := List.pairwise_append.mp h
    rw [keepNew_append_of_new fun b hb => hlast b hb a (List.mem_singleton_self a), ih hl]

/-- There is a member at the position, and its key has not come before. -/
def IsNew (key : α → β) (l : List α) (k : ℕ) : Prop :=
  ∃ hk : k < l.length, ∀ j, ∀ hj : j < k, key l[j] ≠ key l[k]

omit [BEq β] [Hashable β] [LawfulBEq β] in
lemma isNew_append_iff {l : List α} {k : ℕ} (hk : k < l.length) (more : List α) :
    IsNew key (l ++ more) k ↔ IsNew key l k := by
  have hlong : k < (l ++ more).length := by
    rw [List.length_append]
    omega
  rw [IsNew, IsNew, exists_prop_of_true hlong, exists_prop_of_true hk,
    List.getElem_append_left hk]
  refine forall₂_congr fun j hj => ?_
  rw [List.getElem_append_left (by omega)]

omit [BEq β] [Hashable β] [LawfulBEq β] in
lemma isNew_length_iff {l : List α} {a : α} :
    IsNew key (l ++ [a]) l.length ↔ ∀ b ∈ l, key b ≠ key a := by
  rw [IsNew, exists_prop_of_true (by simp), List.getElem_concat_length rfl]
  constructor
  · intro h b hb
    obtain ⟨j, hj, rfl⟩ := List.mem_iff_getElem.mp hb
    simpa [List.getElem_append_left hj] using h j hj
  · intro h j hj
    rw [List.getElem_append_left hj]
    exact h _ (List.getElem_mem hj)

variable (key) in
/-- What is kept, by positions in order: those whose key has not come before. -/
theorem exists_positions_keepNew (l : List α) :
    ∃ kept : List ℕ, kept.Pairwise (· < ·) ∧ (∀ k, k ∈ kept ↔ IsNew key l k) ∧
      keepNew key ∅ l = kept.filterMap (l[·]?) := by
  induction l using List.reverseRecOn with
  | nil =>
    refine ⟨[], List.Pairwise.nil, fun k => ?_, rfl⟩
    simp [IsNew]
  | append_singleton l a ih =>
    obtain ⟨kept, hordered, hkept, heq⟩ := ih
    have hlt {k : ℕ} (hk : k ∈ kept) : k < l.length := ((hkept k).mp hk).1
    have hsame : kept.filterMap ((l ++ [a])[·]?) = kept.filterMap (l[·]?) :=
      List.filterMap_congr fun k hk => List.getElem?_append_left (hlt hk)
    have hcases {k : ℕ} (h : IsNew key (l ++ [a]) k) : k < l.length ∨ k = l.length := by
      have hk := h.1
      rw [List.length_append, List.length_singleton] at hk
      omega
    by_cases h : ∃ b ∈ l, key b = key a
    · obtain ⟨b, hb, hkey⟩ := h
      refine ⟨kept, hordered, fun k => ⟨fun hk => ?_, fun hk => ?_⟩, ?_⟩
      · exact (isNew_append_iff (hlt hk) [a]).mpr ((hkept k).mp hk)
      · rcases hcases hk with hk' | rfl
        · exact (hkept k).mpr ((isNew_append_iff hk' [a]).mp hk)
        · exact absurd hkey (isNew_length_iff.mp hk b hb)
      · rw [hsame, keepNew_append_of_mem hb hkey, heq]
    · have hnew : ∀ b ∈ l, key b ≠ key a := fun b hb hkey => h ⟨b, hb, hkey⟩
      refine ⟨kept ++ [l.length], ?_, fun k => ?_, ?_⟩
      · rw [List.pairwise_append]
        refine ⟨hordered, List.pairwise_singleton _ _, fun k hk k' hk' => ?_⟩
        rw [List.mem_singleton.mp hk']
        exact hlt hk
      · rw [List.mem_append, List.mem_singleton]
        constructor
        · rintro (hk | rfl)
          · exact (isNew_append_iff (hlt hk) [a]).mpr ((hkept k).mp hk)
          · exact isNew_length_iff.mpr hnew
        · intro hk
          exact (hcases hk).imp_left fun hk' => (hkept k).mpr ((isNew_append_iff hk' [a]).mp hk)
      · rw [keepNew_append_of_new hnew, List.filterMap_append, hsame, heq]
        simp

end

/-! ### Fingerprints -/

variable (t : NumberTables)

lemma length_contextsFrom (previous : Rune) (points : List Point) :
    (contextsFrom previous points).length = points.length := by
  induction points generalizing previous with
  | nil => rfl
  | cons p points ih => rw [contextsFrom, List.length_cons, List.length_cons, ih]

lemma length_contexts (points : List Point) : (contexts points).length = points.length := by
  cases points with
  | nil => rfl
  | cons p points => exact length_contextsFrom p.rune (p :: points)

/-- Behind the first point, every point comes after the rune of the one before. -/
lemma getElem_contextsFrom (previous : Rune) (points : List Point) (k : ℕ)
    (hk : k + 1 < points.length) (hk' : k + 1 < (contextsFrom previous points).length) :
    (contextsFrom previous points)[k + 1] =
      ⟨points[k + 1].rune, points[k].rune, points[k + 1].position⟩ := by
  induction points generalizing previous k with
  | nil => exact absurd hk (Nat.not_lt_zero _)
  | cons p points ih =>
    cases k with
    | zero =>
      cases points with
      | nil => exact absurd hk (Nat.lt_irrefl 1)
      | cons q points => rfl
    | succ k => exact ih p.rune k (Nat.lt_of_succ_lt_succ hk) (Nat.lt_of_succ_lt_succ hk')

/-- Every point comes after the rune of the one before; the first point comes after itself. -/
lemma getElem_contexts (points : List Point) (k : ℕ) (hk : k < points.length)
    (hk' : k < (contexts points).length) :
    (contexts points)[k] = ⟨points[k].rune, points[k - 1].rune, points[k].position⟩ := by
  cases points with
  | nil => exact absurd hk (Nat.not_lt_zero _)
  | cons p points =>
    cases k with
    | zero => rfl
    | succ k => exact getElem_contextsFrom p.rune (p :: points) k hk hk'

/-- At every point, after the rune of the point before it, two formulas have the same value, or
both of them have none. The first point comes after itself. -/
def AgreeAt (points : List Point) (f g : Formula) : Prop :=
  ∀ k, ∀ hk : k < points.length,
    (f.evaluate t ⟨points[k].rune, points[k - 1].rune, points[k].position⟩).toOption =
      (g.evaluate t ⟨points[k].rune, points[k - 1].rune, points[k].position⟩).toOption

variable {t} in
/-- Fingerprints tell apart what does not agree, and nothing else. -/
theorem fingerprint_eq_iff {points : List Point} {f g : Formula} :
    fingerprint t points f = fingerprint t points g ↔ AgreeAt t points f g := by
  have hlength := length_contexts points
  rw [fingerprint, fingerprint, List.map_inj_left, AgreeAt]
  constructor
  · intro h k hk
    have hk' : k < (contexts points).length := by omega
    have hmem := h _ (List.getElem_mem hk')
    rwa [getElem_contexts points k hk hk'] at hmem
  · intro h c hc
    obtain ⟨k, hk', rfl⟩ := List.mem_iff_getElem.mp hc
    have hk : k < points.length := by omega
    rw [getElem_contexts points k hk hk']
    exact h k hk

/-! ### One stack -/

/-- What is observed of a formula is its value, whatever is on the stack. -/
lemma observe_fst (c : Context) (f : Formula) (stack : Stack) :
    (observe t c f stack).1 = (f.evaluate t c).toOption := by
  rw [← f.settled_evaluateOn t c stack, observe, Machine.outcome]
  cases f.evaluateOn t c stack <;> rfl

lemma mapM_observe_fst (f : Formula) (cs : List Context) (stack : Stack) :
    ((cs.mapM fun c => observe t c f : StateM Stack Fingerprint) stack).1 =
      cs.map fun c => (f.evaluate t c).toOption := by
  induction cs generalizing stack with
  | nil => rfl
  | cons c cs ih =>
    rw [List.mapM_cons, List.map_cons, ← observe_fst t c f stack, ← ih]
    rfl

lemma fingerprintOn_fst (points : List Point) (f : Formula) (stack : Stack) :
    (fingerprintOn t points f stack).1 = fingerprint t points f :=
  mapM_observe_fst t f (contexts points) stack

/-- The shared stack does not change what is kept. -/
theorem eliminate_eq (points : List Point) (attempts : List String) :
    eliminate t points attempts = eliminateBy (fingerprint t points) attempts :=
  keepNewOn_fst (fingerprintOn_fst t points) ∅ _ []

/-! ### What an elimination keeps -/

/-- The formulas are those of the attempts that agree with no earlier one. -/
structure Earliest (points : List Point) (attempts : List String) (kept : List Formula) :
    Prop where
  sublist : kept.Sublist (attempts.map Formula.ofText)
  pairwise : kept.Pairwise fun f g => fingerprint t points f ≠ fingerprint t points g
  positions : ∃ ks : List ℕ, ks.Pairwise (· < ·) ∧
    kept = ks.filterMap (fun k => attempts[k]?.map Formula.ofText) ∧
    ∀ k, k ∈ ks ↔ ∃ hk : k < attempts.length, ∀ j, ∀ hj : j < k,
      ¬AgreeAt t points (Formula.ofText attempts[j]) (Formula.ofText attempts[k])

lemma earliest_eliminate (points : List Point) (attempts : List String) :
    Earliest t points attempts (eliminate t points attempts) := by
  rw [eliminate_eq, eliminateBy]
  obtain ⟨ks, hordered, hks, hkept⟩ :=
    exists_positions_keepNew (fingerprint t points) (attempts.map Formula.ofText)
  refine ⟨keepNew_sublist ∅ _, pairwise_keepNew _, ks, hordered, ?_, fun k => ?_⟩
  · rw [hkept]
    exact List.filterMap_congr fun k _ => List.getElem?_map
  · simp only [hks, IsNew, List.length_map, List.getElem_map, ne_eq, fingerprint_eq_iff]

/-- What is kept is kept again. -/
lemma eliminate_texts_eliminate (points : List Point) (attempts : List String) :
    eliminate t points ((eliminate t points attempts).map (·.text)) =
      eliminate t points attempts := by
  have hkept := earliest_eliminate t points attempts
  have htexts : ((eliminate t points attempts).map (·.text)).map Formula.ofText =
      eliminate t points attempts := by
    have hsame : ∀ f ∈ eliminate t points attempts, Formula.ofText f.text = f := by
      intro f hf
      obtain ⟨text, -, rfl⟩ := List.mem_map.mp (hkept.sublist.subset hf)
      rfl
    rw [List.map_map]
    exact (List.map_congr_left hsame).trans (List.map_id _)
  rw [eliminate_eq, eliminateBy, htexts]
  exact keepNew_of_pairwise hkept.pairwise

lemma eliminate_prefix (points : List Point) (attempts more : List String) :
    eliminate t points attempts <+: eliminate t points (attempts ++ more) := by
  rw [eliminate_eq, eliminate_eq, eliminateBy, eliminateBy, List.map_append]
  exact keepNew_prefix _ _

lemma map_text_ofText (attempts : List String) :
    (attempts.map Formula.ofText).map (·.text) = attempts := by
  rw [List.map_map]
  exact List.map_id attempts

/-- The texts that are left are among the attempts, in order. -/
lemma texts_eliminate_sublist (points : List Point) (attempts : List String) :
    ((eliminate t points attempts).map (·.text)).Sublist attempts := by
  have hkept := (earliest_eliminate t points attempts).sublist.map (·.text)
  rwa [map_text_ofText] at hkept

/-- The first attempt is never dropped. -/
lemma head?_texts_eliminate (points : List Point) (attempts : List String) :
    ((eliminate t points attempts).map (·.text)).head? = attempts.head? := by
  rw [eliminate_eq, eliminateBy, List.head?_map, head?_keepNew, ← List.head?_map,
    map_text_ofText]

end RuneSolver.Equivalence
