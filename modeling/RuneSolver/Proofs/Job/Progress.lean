import Mathlib.Algebra.Order.Field.Basic
import Mathlib.Data.Rat.Cast.Order
import Mathlib.Tactic.GCongr
import Mathlib.Tactic.Positivity
import RuneSolver.Job.Run
import RuneSolver.Proofs.Word

/-!
The progress of a run. Weights are words of sixty-four bits; as long as all documents together have
fewer lines of runes than such a word can count, every sum is a word and the bound on what is done
never cuts anything off. Main statement: there is a report for every document, and it says that
exactly the lines of this document and of all before it are done.
-/

namespace RuneSolver.Job

/-- The lines of runes of a document, none if it cannot be read. -/
def lineCount (d : Disk) (path : String) : ℕ :=
  match d.readText path with
  | .ok source => runeLineCount source
  | .error _ => 0

/-- The lines of runes of several documents. -/
def lineTotal (d : Disk) (paths : List String) : ℕ := (paths.map (lineCount d)).sum

variable {d : Disk} {s : Cipher.Solver} {formulas : List Formula} {paths : List String}
  {path : String} {p : Progress}

lemma lineTotal_cons : lineTotal d (path :: paths) = lineCount d path + lineTotal d paths :=
  List.sum_cons

/-- The more documents, the more lines. -/
lemma lineTotal_take_le {m n : ℕ} (h : m ≤ n) :
    lineTotal d (paths.take m) ≤ lineTotal d (paths.take n) := by
  obtain ⟨k, rfl⟩ := Nat.exists_eq_add_of_le h
  rw [lineTotal, lineTotal, List.take_add, List.map_append, List.sum_append]
  exact Nat.le_add_right _ _

lemma weight_eq : weight d path = UInt64.ofNat (lineCount d path) := by
  rw [weight, lineCount]
  cases d.readText path <;> rfl

lemma toNat_weight (h : lineCount d path < 2 ^ 64) : (weight d path).toNat = lineCount d path := by
  rw [weight_eq, UInt64.toNat_ofNat_of_lt' h]

/-- The weights have the sum of the lines. -/
lemma exists_totalWeight? (h : lineTotal d paths < 2 ^ 64) :
    ∃ total, totalWeight? d paths = some total ∧ total.toNat = lineTotal d paths := by
  have hweights : (paths.map (weight d)).map UInt64.toNat = paths.map (lineCount d) := by
    rw [List.map_map]
    refine List.map_congr_left fun path hpath => toNat_weight ?_
    exact (List.single_le_sum (fun _ _ => Nat.zero_le _) _ (List.mem_map_of_mem hpath)).trans_lt h
  have htotal : (UInt64.ofNat (lineTotal d paths)).toNat = lineTotal d paths :=
    UInt64.toNat_ofNat_of_lt' h
  refine ⟨_, Word.sum?_eq_some_iff.mpr ?_, htotal⟩
  rw [htotal, hweights, lineTotal]

namespace Progress

/-- The exact percentage. A job without weight is done. -/
def ratio (p : Progress) : ℚ := if p.total = 0 then 100 else 100 * p.done.toNat / p.total.toNat

/-- What a weight adds to what is done, if the two have a sum. -/
lemma record?_eq_some_iff {w : UInt64} {next : Progress} :
    p.record? w = some next ↔
      p.done.toNat + w.toNat < 2 ^ 64 ∧ next.total = p.total ∧
        next.done.toNat = min (p.done.toNat + w.toNat) p.total.toNat := by
  rw [record?, Option.map_eq_some_iff]
  constructor
  · rintro ⟨sum, hsum, rfl⟩
    rw [Word.add?_eq_some_iff] at hsum
    exact ⟨hsum ▸ sum.toNat_lt, rfl, by rw [UInt64.toNat_min, hsum]⟩
  · rintro ⟨hfits, htotal, hdone⟩
    have hsum : (UInt64.ofNat (p.done.toNat + w.toNat)).toNat = p.done.toNat + w.toNat :=
      UInt64.toNat_ofNat_of_lt' hfits
    refine ⟨_, Word.add?_eq_some_iff.mpr hsum, ?_⟩
    rw [← hsum, ← UInt64.toNat_min, UInt64.toNat_inj] at hdone
    rw [← hdone, ← htotal]

/-- Weights that are still to be done can be recorded. -/
lemma exists_record? {w : UInt64} (h : p.done.toNat + w.toNat ≤ p.total.toNat) :
    ∃ next, p.record? w = some next ∧ next.total = p.total ∧
      next.done.toNat = p.done.toNat + w.toNat := by
  have hfits : p.done.toNat + w.toNat < 2 ^ 64 := h.trans_lt p.total.toNat_lt
  have hdone : (UInt64.ofNat (p.done.toNat + w.toNat)).toNat = p.done.toNat + w.toNat :=
    UInt64.toNat_ofNat_of_lt' hfits
  exact ⟨⟨p.total, .ofNat (p.done.toNat + w.toNat)⟩,
    record?_eq_some_iff.mpr ⟨hfits, rfl, by rw [hdone, min_eq_left h]⟩, rfl, hdone⟩

/-- The more is done, the higher the percentage. -/
lemma ratio_le_ratio {q : Progress} (htotal : p.total = q.total)
    (h : p.done.toNat ≤ q.done.toNat) : p.ratio ≤ q.ratio := by
  rw [ratio, ratio, htotal]
  split
  · exact le_refl _
  · have hcast : (p.done.toNat : ℚ) ≤ q.done.toNat := Nat.cast_le.mpr h
    gcongr

lemma ratio_of_done (h : p.done = p.total) : p.ratio = 100 := by
  rw [ratio, h]
  split
  · rfl
  · next htotal =>
    have hne : (p.total.toNat : ℚ) ≠ 0 := by
      rw [Nat.cast_ne_zero]
      exact fun hzero => htotal (UInt64.toNat_inj.mp hzero)
    exact mul_div_cancel_right₀ 100 hne

end Progress

/-! ### The reports of a run -/

/-- A run reports a document if its weight can be recorded and the rest can be run. -/
lemma runFrom_cons_eq_some_iff {reports : List Report} :
    runFrom d s formulas p (path :: paths) = some reports ↔
      ∃ next, p.record? (weight d path) = some next ∧
        ∃ later, runFrom d s formulas next paths = some later ∧
          ⟨path, search d s formulas path, next⟩ :: later = reports := by
  simp only [runFrom, Option.bind_eq_bind, Option.bind_eq_some_iff, Option.pure_def,
    Option.some.injEq]

/-- What the reports say, given that the documents that are left are exactly what is not done. -/
lemma exists_runFrom (s : Cipher.Solver) (formulas : List Formula)
    (h : p.done.toNat + lineTotal d paths = p.total.toNat) :
    ∃ reports, runFrom d s formulas p paths = some reports ∧ reports.length = paths.length ∧
      ∀ (i : ℕ) (path : String), paths[i]? = some path →
        ∃ r, reports[i]? = some r ∧ r.path = path ∧ r.outcome = search d s formulas path ∧
          r.progress.total = p.total ∧
          r.progress.done.toNat = p.done.toNat + lineTotal d (paths.take (i + 1)) := by
  induction paths generalizing p with
  | nil => exact ⟨[], rfl, rfl, nofun⟩
  | cons head paths ih =>
    have htotal := p.total.toNat_lt
    rw [lineTotal_cons] at h
    have hweight : (weight d head).toNat = lineCount d head := toNat_weight (by omega)
    obtain ⟨next, hnext, hsame, hdone⟩ :=
      Progress.exists_record? (p := p) (w := weight d head) (by omega)
    rw [hweight] at hdone
    obtain ⟨later, hlater, hlength, hreports⟩ := ih (p := next) (by rw [hsame, hdone]; omega)
    refine ⟨_, runFrom_cons_eq_some_iff.mpr ⟨next, hnext, later, hlater, rfl⟩,
      congrArg Nat.succ hlength, fun i path hi => ?_⟩
    cases i with
    | zero =>
      cases hi
      exact ⟨_, rfl, rfl, rfl, hsame, hdone⟩
    | succ i =>
      obtain ⟨r, hr, hpath, houtcome, htotal', hlines⟩ := hreports i path hi
      refine ⟨r, hr, hpath, houtcome, htotal'.trans hsame, ?_⟩
      rw [hlines, hdone, List.take_succ_cons, lineTotal_cons, Nat.add_assoc]

/-- **The reports of a run.** There is one for each path, in the order of the paths; it has the
outcome of this document alone, and the lines of this document and of all before it are done. -/
theorem exists_run (s : Cipher.Solver) (formulas : List Formula) (h : lineTotal d paths < 2 ^ 64) :
    ∃ reports, run d s formulas paths = some reports ∧ reports.length = paths.length ∧
      ∀ (i : ℕ) (path : String), paths[i]? = some path →
        ∃ r, reports[i]? = some r ∧ r.path = path ∧ r.outcome = search d s formulas path ∧
          r.progress.total.toNat = lineTotal d paths ∧
          r.progress.done.toNat = lineTotal d (paths.take (i + 1)) := by
  obtain ⟨total, hweights, htotal⟩ := exists_totalWeight? h
  have hstart : (Progress.start total).done.toNat + lineTotal d paths =
      (Progress.start total).total.toNat := (Nat.zero_add _).trans htotal.symm
  obtain ⟨reports, hrun, hlength, hreports⟩ := exists_runFrom s formulas hstart
  refine ⟨reports, ?_, hlength, fun i path hi => ?_⟩
  · rw [run, hweights]
    exact hrun
  · obtain ⟨r, hr, hpath, houtcome, hsame, hlines⟩ := hreports i path hi
    exact ⟨r, hr, hpath, houtcome, (congrArg UInt64.toNat hsame).trans htotal,
      hlines.trans (Nat.zero_add _)⟩

variable {reports : List Report}

/-- The percentages of a run never decrease. -/
theorem pairwise_ratio_run (h : lineTotal d paths < 2 ^ 64)
    (hrun : run d s formulas paths = some reports) :
    (reports.map (·.progress.ratio)).Pairwise (· ≤ ·) := by
  obtain ⟨_, hrun', hlength, hreports⟩ := exists_run s formulas h
  obtain rfl := Option.some.inj (hrun'.symm.trans hrun)
  refine List.pairwise_map.mpr (List.pairwise_iff_getElem.mpr fun i j hi hj hij => ?_)
  obtain ⟨r, hr, -, -, htotal, hdone⟩ :=
    hreports i _ (List.getElem?_eq_getElem (hlength ▸ hi))
  obtain ⟨r', hr', -, -, htotal', hdone'⟩ :=
    hreports j _ (List.getElem?_eq_getElem (hlength ▸ hj))
  rw [(List.getElem?_eq_some_iff.mp hr).2, (List.getElem?_eq_some_iff.mp hr').2]
  refine Progress.ratio_le_ratio (UInt64.toNat_inj.mp (htotal.trans htotal'.symm)) ?_
  rw [hdone, hdone']
  exact lineTotal_take_le (by omega)

/-- The last percentage of a run is a hundred. -/
theorem ratio_getLast?_run (h : lineTotal d paths < 2 ^ 64)
    (hrun : run d s formulas paths = some reports) (hne : paths ≠ []) :
    reports.getLast?.map (·.progress.ratio) = some 100 := by
  obtain ⟨_, hrun', hlength, hreports⟩ := exists_run s formulas h
  obtain rfl := Option.some.inj (hrun'.symm.trans hrun)
  have hpos := List.length_pos_iff.mpr hne
  obtain ⟨r, hr, -, -, htotal, hdone⟩ := hreports (paths.length - 1) _
    (List.getElem?_eq_getElem (by omega))
  rw [Nat.sub_add_cancel hpos, List.take_length] at hdone
  have hall := Progress.ratio_of_done (UInt64.toNat_inj.mp (hdone.trans htotal.symm))
  rw [List.getLast?_eq_getElem?, hlength, hr, Option.map_some, hall]

end RuneSolver.Job
