import RuneSolver.Proofs.Job.Percentage

/-!
What is finished after a sequence of weights. A sum is cut off to the total only after it has been
formed in a word; where it is no word, there is no progress at all, although what is cut off would
fit. Main statement: a sequence has a progress exactly if every weight has a sum with what is
finished before it; then the finished amount is the exact sum of the weights, at most the total, and
the percentages never decrease.
-/

namespace RuneSolver.Job.Progress

variable {total w : UInt64} {weights earlier later : List UInt64} {p : Progress} {elapsed : ℕ}

/-- The progress of a job after some weights, if all of them can be recorded. -/
def after? (total : UInt64) (weights : List UInt64) : Option Progress :=
  weights.foldlM record? (start total)

/-- The exact sum of weights. -/
def exactWeight (weights : List UInt64) : ℕ := (weights.map UInt64.toNat).sum

/-- Every weight fits into a word together with what is finished before it. -/
def Fits (total : UInt64) (weights : List UInt64) : Prop :=
  ∀ earlier w, earlier ++ [w] <+: weights →
    min (exactWeight earlier) total.toNat + w.toNat < 2 ^ 64

/-- The progress by the exact sum of weights, at most all of the job. -/
def reached (total : UInt64) (weights : List UInt64) : Progress :=
  ⟨total, .ofNat (min (exactWeight weights) total.toNat)⟩

lemma remaining_eq_unknown_iff : p.remaining elapsed = .unknown ↔ p.done = 0 := by
  rw [remaining]
  split
  case isTrue h => exact iff_of_true rfl h
  case isFalse h =>
    refine iff_of_false ?_ h
    split <;> exact nofun

/-! ### Exact sums -/

@[simp] lemma exactWeight_append :
    exactWeight (earlier ++ later) = exactWeight earlier + exactWeight later := by
  rw [exactWeight, List.map_append, List.sum_append]
  rfl

@[simp] lemma exactWeight_singleton : exactWeight [w] = w.toNat := List.sum_singleton

lemma exactWeight_le (h : earlier <+: later) : exactWeight earlier ≤ exactWeight later := by
  obtain ⟨rest, rfl⟩ := h
  rw [exactWeight_append]
  exact Nat.le_add_right _ _

lemma Fits.initial (h : Fits total later) (hearlier : earlier <+: later) : Fits total earlier :=
  fun _ _ hpart => h _ _ (hpart.trans hearlier)

lemma fits_concat_iff : Fits total (weights ++ [w]) ↔
    Fits total weights ∧ min (exactWeight weights) total.toNat + w.toNat < 2 ^ 64 := by
  refine ⟨fun h => ⟨h.initial (List.prefix_append _ _), h _ _ List.prefix_rfl⟩, ?_⟩
  rintro ⟨h, hlast⟩ earlier v hpart
  rcases List.prefix_concat_iff.mp hpart with heq | hpart
  · obtain ⟨rfl, rfl⟩ := List.append_singleton_inj.mp heq
    exact hlast
  · exact h earlier v hpart

lemma fits_iff_getElem : Fits total weights ↔ ∀ i, (hi : i < weights.length) →
    min (exactWeight (weights.take i)) total.toNat + weights[i].toNat < 2 ^ 64 := by
  constructor
  · intro h i hi
    refine h _ _ ?_
    rw [List.take_concat_get']
    exact List.take_prefix _ _
  · rintro h earlier w ⟨rest, rfl⟩
    have hlast := h earlier.length (by simp)
    simpa using hlast

instance : Decidable (Fits total weights) := decidable_of_iff _ fits_iff_getElem.symm

/-- If all weights together fit into a word, each one does with what is finished before it. -/
lemma fits_of_exactWeight_lt (h : exactWeight weights < 2 ^ 64) : Fits total weights := by
  intro earlier w hpart
  have hle := exactWeight_le hpart
  rw [exactWeight_append, exactWeight_singleton] at hle
  omega

/-! ### The progress by an exact sum -/

lemma toNat_done_reached :
    (reached total weights).done.toNat = min (exactWeight weights) total.toNat :=
  UInt64.toNat_ofNat_of_lt' ((min_le_right _ _).trans_lt total.toNat_lt)

/-- One more weight is recorded by the exact sum, or not at all. -/
lemma record?_reached : (reached total weights).record? w =
    if min (exactWeight weights) total.toNat + w.toNat < 2 ^ 64 then
      some (reached total (weights ++ [w]))
    else none := by
  split
  case isTrue hfits =>
    rw [record?_eq_some_iff, toNat_done_reached, toNat_done_reached, exactWeight_append,
      exactWeight_singleton]
    have htotal : (reached total weights).total = total := rfl
    rw [htotal]
    exact ⟨hfits, rfl, by omega⟩
  case isFalse hleaves =>
    rw [Option.eq_none_iff_forall_ne_some]
    intro next hnext
    rw [record?_eq_some_iff, toNat_done_reached] at hnext
    exact hleaves hnext.1

/-- **The progress after some weights** is that by their exact sum, if they fit. -/
theorem after?_eq :
    after? total weights = if Fits total weights then some (reached total weights) else none := by
  induction weights using List.reverseRecOn with
  | nil =>
    have hnone : Fits total [] := fun earlier w hpart =>
      absurd (List.prefix_nil.mp hpart) (List.concat_ne_nil w earlier)
    rw [if_pos hnone, reached]
    exact congrArg (fun done => some (mk total done)) (UInt64.toNat_inj.mp (by simp [exactWeight]))
  | append_singleton weights w ih =>
    have hlast : after? total (weights ++ [w]) = (after? total weights).bind (·.record? w) := by
      simp only [after?, List.foldlM_append, List.foldlM_cons, List.foldlM_nil, bind_pure]
      rfl
    rw [hlast, ih]
    by_cases hfits : Fits total weights
    · rw [if_pos hfits, Option.bind_some, record?_reached]
      exact if_congr (fits_concat_iff.trans (and_iff_right hfits)).symm rfl rfl
    · rw [if_neg hfits, if_neg fun h => hfits (fits_concat_iff.mp h).1]
      rfl

lemma after?_eq_some_iff :
    after? total weights = some p ↔ Fits total weights ∧ reached total weights = p := by
  rw [after?_eq]
  by_cases hfits : Fits total weights <;> simp [hfits]

lemma done_reached_le : (reached total weights).done ≤ total := by
  rw [UInt64.le_iff_toNat_le, toNat_done_reached]
  exact min_le_right _ _

lemma done_reached_le_done (h : earlier <+: later) :
    (reached total earlier).done ≤ (reached total later).done := by
  have hle := exactWeight_le h
  rw [UInt64.le_iff_toNat_le, toNat_done_reached, toNat_done_reached]
  omega

lemma reached_eq_finished (h : total.toNat ≤ exactWeight weights) :
    reached total weights = finished total := by
  have hdone : (reached total weights).done = total := by
    rw [← UInt64.toNat_inj, toNat_done_reached, min_eq_right h]
  exact congrArg (mk total) hdone

/-- **A job has a progress exactly as long as every sum is a word.** So it does if the exact sum is
one. Then the finished amount is the exact sum, at most the total; no percentage is lower than an
earlier one or above the one of a finished job, and a job that has reached its total stays finished.
The time that is left is unknown exactly while nothing is finished. The percentage of a finished job
is a hundred as a ratio, and a hundred up to the last place as a double. -/
theorem isSome_after?_iff_fits (total : UInt64) (weights : List UInt64) :
    ((after? total weights).isSome ↔ Fits total weights) ∧
    (exactWeight weights < 2 ^ 64 → Fits total weights) ∧
    (∀ p, after? total weights = some p →
      p.total = total ∧ p.done.toNat = min (exactWeight weights) total.toNat ∧
      p.ratio ≤ 100 ∧ p.percent ≤ (finished total).percent ∧
      (∀ elapsed, p.remaining elapsed = .unknown ↔ p.done = 0) ∧
      ∀ earlier, earlier <+: weights → ∃ q, after? total earlier = some q ∧
        q.ratio ≤ p.ratio ∧ q.percent ≤ p.percent ∧
        (total.toNat ≤ exactWeight earlier → q = finished total ∧ p = finished total)) ∧
    (finished total).ratio = 100 ∧
    99.99999999999999 ≤ (finished total).percent ∧
    (finished total).percent ≤ 100.00000000000001 ∧
    (25 * total.toNat < 2 ^ 53 → (finished total).percent = 100.0) := by
  obtain ⟨hlow, hhigh⟩ := percent_finished_bounds total
  refine ⟨?_, fits_of_exactWeight_lt, fun p hp => ?_, ratio_finished total, hlow, hhigh,
    percent_finished⟩
  · rw [after?_eq]
    by_cases hfits : Fits total weights <;> simp [hfits]
  · obtain ⟨hfits, rfl⟩ := after?_eq_some_iff.mp hp
    refine ⟨rfl, toNat_done_reached, ?_, percent_le_percent rfl done_reached_le,
      fun elapsed => remaining_eq_unknown_iff, fun earlier hearlier => ?_⟩
    · rw [← ratio_finished total]
      exact ratio_le_ratio rfl (UInt64.le_iff_toNat_le.mp done_reached_le)
    · have hdone : (reached total earlier).done ≤ (reached total weights).done :=
        done_reached_le_done hearlier
      refine ⟨_, after?_eq_some_iff.mpr ⟨hfits.initial hearlier, rfl⟩,
        ratio_le_ratio rfl (UInt64.le_iff_toNat_le.mp hdone), percent_le_percent rfl hdone,
        fun hreached => ⟨reached_eq_finished hreached, ?_⟩⟩
      exact reached_eq_finished (hreached.trans (exactWeight_le hearlier))

/-- The second weight fits into a word together with the first one, but with nothing more. -/
theorem isSome_after?_iff_fits_full :
    Fits 10 [3, 18446744073709551612, 5] ∧ exactWeight [3, 18446744073709551612, 5] = 2 ^ 64 + 4 ∧
      after? 10 [3, 18446744073709551612, 5] = some (finished 10) ∧
      (finished 10).percent = 100.0 ∧ (finished 10).remaining 0 ≠ .unknown ∧
      (∃ q, after? 10 [3] = some q ∧ q.percent = 30.0 ∧ q.ratio ≤ (finished 10).ratio) ∧
      exactWeight [3, 4, 5] < 2 ^ 64 ∧ Fits 10 [3, 4, 5] := by
  have hfits : Fits 10 [3, 18446744073709551612, 5] := by decide
  obtain ⟨hiff, -, hafter, -, -, -, hfull⟩ :=
    isSome_after?_iff_fits 10 [3, 18446744073709551612, 5]
  obtain ⟨-, hsum, -⟩ := isSome_after?_iff_fits 10 [3, 4, 5]
  obtain ⟨p, hp⟩ := Option.isSome_iff_exists.mp (hiff.mpr hfits)
  obtain ⟨-, -, -, -, htime, hearlier⟩ := hafter p hp
  have htwo : [(3 : UInt64), 18446744073709551612] <+: [3, 18446744073709551612, 5] := ⟨[5], rfl⟩
  have hone : [(3 : UInt64)] <+: [3, 18446744073709551612, 5] := ⟨[18446744073709551612, 5], rfl⟩
  obtain ⟨_, -, -, -, hreached⟩ := hearlier _ htwo
  obtain ⟨-, rfl⟩ := hreached (by decide)
  obtain ⟨q, hq, hratio, -⟩ := hearlier _ hone
  obtain rfl : ⟨10, 3⟩ = q := Option.some.inj hq
  exact ⟨hfits, rfl, hp, hfull (by decide), mt (htime 0).mp (by decide), ⟨_, rfl, rfl, hratio⟩,
    by decide, hsum (by decide)⟩

/-- Half of the job is finished, and then comes a weight whose sum with that is no word: the job
has no progress any more, although the exact sum finishes it. -/
theorem after?_beyond_word :
    exactWeight [5, 18446744073709551611] = 2 ^ 64 ∧ ¬Fits 10 [5, 18446744073709551611] ∧
      min (exactWeight [5, 18446744073709551611]) (10 : UInt64).toNat = 10 ∧
      (∃ p, after? 10 [5] = some p ∧ p.done = 5 ∧ p.percent = 50.0) ∧
      after? 10 [5, 18446744073709551611] = none :=
  ⟨rfl, by decide, rfl, ⟨_, rfl, rfl, rfl⟩, rfl⟩

end RuneSolver.Job.Progress
