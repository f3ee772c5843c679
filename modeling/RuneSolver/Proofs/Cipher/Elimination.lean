import RuneSolver.Equivalence.Fingerprint
import RuneSolver.Proofs.Cipher.Selection

/-!
Searches without equivalent formulas. Main statement: when formulas with equal fingerprints come to
the same texts, dropping all but the earliest of each fingerprint leaves the selection as it is.
What makes it so is that a search keeps the earlier of equal scores, and an elimination the earlier
of equal fingerprints.
-/

namespace RuneSolver.Cipher

open RuneSolver.Language RuneSolver.Equivalence

namespace Solver

/-- Under every shift that is tried, two formulas have the same text, or both of them have none. -/
def AgreeOn (s : Solver) (d : Document) (f g : Formula) : Prop :=
  ∀ shift ∈ s.shifts, (s.decipher f d shift).toOption = (s.decipher g d shift).toOption

/-! ### Candidates that do not count any more -/

/-- None of the candidates scores higher than the best one so far. -/
def Settled (best : Option Candidate) (cs : List Candidate) : Prop :=
  ∀ c ∈ cs, ¬bar best < c.score

variable {s : Solver} {d : Document} {best : Option Candidate} {c : Candidate}
  {cs cs' : List Candidate} {f g : Formula}

lemma Settled.foldl_better (h : Settled best cs) : cs.foldl better best = best := by
  induction cs with
  | nil => rfl
  | cons c cs ih =>
    rw [List.foldl_cons, better, if_neg (h c List.mem_cons_self)]
    exact ih fun c' hc' => h c' (List.mem_cons_of_mem c hc')

lemma not_bar_better_lt {x : Float} (h : ¬bar best < x) : ¬bar (better best c) < x := by
  rw [better]
  split
  · next hlt => exact fun hx => h (lt_trans' hlt hx)
  · exact h

/-- What does not count stays so while the best candidate gets better. -/
lemma Settled.better (h : Settled best cs) (c : Candidate) : Settled (better best c) cs :=
  fun c' hc' => not_bar_better_lt (h c' hc')

lemma Settled.foldl (h : Settled best cs) (cs' : List Candidate) :
    Settled (cs'.foldl Solver.better best) cs := by
  induction cs' generalizing best with
  | nil => exact h
  | cons c cs' ih => exact ih (h.better c)

/-- Candidates that have been considered do not count any more. -/
lemma settled_foldl_better (best : Option Candidate) (cs : List Candidate) :
    Settled (cs.foldl better best) cs := by
  induction cs generalizing best with
  | nil => exact nofun
  | cons c cs ih =>
    have hhead : Settled (better best c) [c] := by
      intro c' hc'
      obtain rfl := List.mem_singleton.mp hc'
      rw [Solver.better]
      split
      · exact not_lt_self _
      · next hlt => exact hlt
    intro c' hc'
    rcases List.mem_cons.mp hc' with rfl | hc'
    · exact hhead.foldl cs c' (List.mem_singleton_self c')
    · exact ih _ c' hc'

/-! ### Formulas that agree -/

/-- Of formulas that agree, the candidates differ in nothing but the formula. -/
lemma AgreeOn.candidate? (h : s.AgreeOn d f g) {shift : UInt64} (hshift : shift ∈ s.shifts) :
    s.candidate? d f shift =
      (s.candidate? d g shift).map fun c => { c with formula := f.text } := by
  have htext := h shift hshift
  rw [Solver.candidate?, Solver.candidate?]
  cases hf : s.decipher f d shift with
  | error e =>
    cases hg : s.decipher g d shift with
    | error e' => rfl
    | ok text => rw [hf, hg] at htext; cases htext
  | ok text =>
    cases hg : s.decipher g d shift with
    | error e => rw [hf, hg] at htext; cases htext
    | ok text' =>
      rw [hf, hg] at htext
      cases htext
      simp only
      split <;> rfl

/-- A formula adds nothing once another one that agrees with it has been considered. -/
lemma AgreeOn.settled (h : s.AgreeOn d f g) (hg : Settled best (s.candidates [g] d)) :
    Settled best (s.candidates [f] d) := by
  intro c hc
  rw [candidates_singleton] at hc hg
  obtain ⟨shift, hshift, hcandidate⟩ := List.mem_filterMap.mp hc
  rw [h.candidate? hshift] at hcandidate
  obtain ⟨c', hc', rfl⟩ := Option.map_eq_some_iff.mp hcandidate
  exact hg c' (List.mem_filterMap.mpr ⟨shift, hshift, hc'⟩)

/-! ### The search without them -/

lemma candidates_cons (f : Formula) (formulas : List Formula) :
    s.candidates (f :: formulas) d = s.candidates [f] d ++ s.candidates formulas d :=
  candidates_append [f] formulas

variable {key : Formula → Fingerprint} {all formulas : List Formula}
  {seen : Std.HashSet Fingerprint}

/-- Every fingerprint seen is that of a formula whose candidates do not count any more. -/
def Considered (s : Solver) (d : Document) (key : Formula → Fingerprint) (all : List Formula)
    (seen : Std.HashSet Fingerprint) (best : Option Candidate) : Prop :=
  ∀ k ∈ seen, ∃ g ∈ all, key g = k ∧ Settled best (s.candidates [g] d)

lemma Considered.insert (h : s.Considered d key all seen best) (hf : f ∈ all) :
    s.Considered d key all (seen.insert (key f)) ((s.candidates [f] d).foldl better best) := by
  intro k hk
  rcases Std.HashSet.mem_insert.mp hk with heq | hk
  · exact ⟨f, hf, by simpa using heq, settled_foldl_better best _⟩
  · obtain ⟨g, hg, hkey, hsettled⟩ := h k hk
    exact ⟨g, hg, hkey, hsettled.foldl _⟩

/-- At every formula that is dropped, the best candidate stands as it would after the formula. -/
theorem foldl_better_keepNew
    (hagree : ∀ f ∈ all, ∀ g ∈ all, key f = key g → s.AgreeOn d f g)
    (hsub : ∀ f ∈ formulas, f ∈ all) (hseen : s.Considered d key all seen best) :
    (s.candidates (keepNew key seen formulas) d).foldl better best =
      (s.candidates formulas d).foldl better best := by
  induction formulas generalizing seen best with
  | nil => rfl
  | cons f formulas ih =>
    have hf := hsub f List.mem_cons_self
    have hrest : ∀ g ∈ formulas, g ∈ all := fun g hg => hsub g (List.mem_cons_of_mem f hg)
    rw [keepNew, candidates_cons, List.foldl_append]
    split
    · next hdropped =>
      obtain ⟨g, hg, hkey, hsettled⟩ := hseen _ (Std.HashSet.mem_iff_contains.mpr hdropped)
      have hsame := ((hagree f hf g hg hkey.symm).settled hsettled).foldl_better
      rw [hsame]
      exact ih hrest hseen
    · rw [candidates_cons, List.foldl_append]
      exact ih hrest (hseen.insert hf)

/-- **Equivalent formulas do not count for the selection.** Whatever the fingerprints of attempts
are, if attempts of the same fingerprint agree on a document, then a search among the earliest ones
of each fingerprint finds what a search among all of them finds. -/
theorem search_eliminateBy (s : Solver) (d : Document) (key : Formula → Fingerprint)
    (attempts : List String)
    (hagree : ∀ a ∈ attempts, ∀ b ∈ attempts, key (.ofText a) = key (.ofText b) →
      s.AgreeOn d (.ofText a) (.ofText b)) :
    s.search (eliminateBy key attempts) d = s.search (attempts.map .ofText) d := by
  have hall : ∀ f ∈ attempts.map Formula.ofText, ∀ g ∈ attempts.map Formula.ofText,
      key f = key g → s.AgreeOn d f g := by
    intro f hf g hg
    obtain ⟨a, ha, rfl⟩ := List.mem_map.mp hf
    obtain ⟨b, hb, rfl⟩ := List.mem_map.mp hg
    exact hagree a ha b hb
  have hnothing : s.Considered d key (attempts.map .ofText) ∅ none :=
    fun k hk => absurd hk Std.HashSet.not_mem_empty
  rw [search_eq_foldl_better, search_eq_foldl_better, eliminateBy]
  exact foldl_better_keepNew hall (fun _ hf => hf) hnothing

end Solver

/-! ### A search with formulas that agree -/

/-- Two attempts that always fail, and two that stand for the index of the rune. -/
def sampleAttempts : List String := ["p 0 /", "p", "p 0 +", "p 0 %"]

/-- The first two runes of the sample, at the first two positions. -/
def samplePoints : List Point := [⟨⟨'A', 0, 2, "A"⟩, 0⟩, ⟨⟨'B', 1, 3, "B"⟩, 1⟩]

/-- The fingerprint of an attempt of the sample. -/
def sampleKey (f : Formula) : Fingerprint := fingerprint sampleSolver.tables samplePoints f

/-- Either of the later attempts goes, and the one that wins among the others wins among all. -/
theorem search_eliminateBy_sample :
    (∀ a ∈ sampleAttempts, ∀ b ∈ sampleAttempts, sampleKey (.ofText a) = sampleKey (.ofText b) →
      sampleSolver.AgreeOn sampleLine (.ofText a) (.ofText b)) ∧
    eliminateBy sampleKey sampleAttempts = [.ofText "p 0 /", .ofText "p"] ∧
    sampleSolver.search [.ofText "p 0 /", .ofText "p"] sampleLine =
      sampleSolver.search (sampleAttempts.map .ofText) sampleLine := by
  have hdivide : sampleKey (.ofText "p 0 /") = [none, none] := by decide
  have hremainder : sampleKey (.ofText "p 0 %") = [none, none] := by decide
  have hindex : sampleKey (.ofText "p") = [some 0, some 1] := by decide
  have hsum : sampleKey (.ofText "p 0 +") = [some 0, some 1] := by decide
  have hfails : ∀ shift, sampleSolver.decipher (.ofText "p 0 /") sampleLine shift =
      sampleSolver.decipher (.ofText "p 0 %") sampleLine shift := by
    intro shift
    rw [Solver.decipher, Solver.decipher, segments_sampleLine, segments_sampleLine]
    rfl
  have hsame : ∀ shift, sampleSolver.decipher (.ofText "p 0 +") sampleLine shift =
      sampleSolver.decipher (.ofText "p") sampleLine shift := by
    intro shift
    rw [Solver.decipher, Solver.decipher, segments_sampleLine, segments_sampleLine]
    rfl
  have hagree : ∀ a ∈ sampleAttempts, ∀ b ∈ sampleAttempts,
      sampleKey (.ofText a) = sampleKey (.ofText b) →
      sampleSolver.AgreeOn sampleLine (.ofText a) (.ofText b) := by
    intro a ha b hb hkey shift _
    simp only [sampleAttempts, List.mem_cons, List.not_mem_nil, or_false] at ha hb
    rcases ha with rfl | rfl | rfl | rfl <;> rcases hb with rfl | rfl | rfl | rfl <;>
      simp [hdivide, hremainder, hindex, hsum, hfails, hsame] at hkey ⊢
  have hkept : eliminateBy sampleKey sampleAttempts = [.ofText "p 0 /", .ofText "p"] := by
    simp [eliminateBy, sampleAttempts, keepNew, hdivide, hremainder, hindex, hsum]
  refine ⟨hagree, hkept, ?_⟩
  rw [← hkept]
  exact Solver.search_eliminateBy sampleSolver sampleLine sampleKey sampleAttempts hagree

end RuneSolver.Cipher
