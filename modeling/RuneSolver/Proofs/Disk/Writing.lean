import Mathlib.Data.List.Basic
import RuneSolver.Disk.Basic

/-!
Writing a text and reading it again. Writing changes the entry at one place only, which was no
directory before, so every path that was followed through directories still is. Main statement: a
text that has been written is read at the same path.
-/

namespace RuneSolver.Disk

variable {d d' : Disk} {names file : Names} {bytes : ByteArray} {path text : String}

/-! ### The last step of a path -/

lemma exists_splitOn_append_singleton (cs : List Char) {c : Char} (hc : c ≠ '/') :
    ∃ init last, (cs ++ [c]).splitOn '/' = init ++ [last ++ [c]] := by
  have hcut : (c == '/') = false := by simpa using hc
  induction cs with
  | nil =>
    refine ⟨[], [], ?_⟩
    simp [List.splitOn, List.splitOnP_cons_eq_if_modifyHead, hcut]
  | cons e cs ih =>
    obtain ⟨init, last, hsplit⟩ := ih
    rw [List.cons_append, List.splitOn, List.splitOnP_cons_eq_if_modifyHead, ← List.splitOn, hsplit]
    split
    · exact ⟨[] :: init, last, rfl⟩
    · cases init with
      | nil => exact ⟨[], e :: last, rfl⟩
      | cons piece init => exact ⟨(e :: piece) :: init, last, rfl⟩

/-- The last step of a path that names no directory is not empty. -/
lemma exists_steps (hpath : path.isEmpty = false) (hfile : namesDirectory path = false) :
    ∃ init last, steps path = init ++ [last] ∧ last.isEmpty = false := by
  have hne : path.toList ≠ [] := by
    intro hnil
    have hempty : path = "" := String.toList_injective hnil
    rw [hempty] at hpath
    cases hpath
  obtain ⟨cs, c, hcs⟩ := (List.eq_nil_or_concat path.toList).resolve_left hne
  rw [List.concat_eq_append] at hcs
  have hc : c ≠ '/' := by
    rintro rfl
    simp [namesDirectory, hcs] at hfile
  obtain ⟨init, last, hsplit⟩ := exists_splitOn_append_singleton cs hc
  refine ⟨init.map String.ofList, String.ofList (last ++ [c]), ?_, by simp⟩
  simp only [steps, hcs, hsplit, List.map_append, List.map_cons, List.map_nil]

/-! ### Following paths after a change -/

lemma entry_put_self (d : Disk) (file : Names) (bytes : ByteArray) :
    Disk.entry? (d.put file bytes) file = some (.file bytes) := by
  simp [put, entry?]

lemma lookup_put (d : Disk) (bytes : ByteArray) (h : names ≠ file) :
    (d.put file bytes).entries.lookup names = d.entries.lookup names := by
  have hhead : (names == file) = false := by simpa using h
  simp only [put, List.lookup_cons, hhead]
  induction d.entries with
  | nil => rfl
  | cons entry entries ih =>
    by_cases hkey : entry.1 = file
    · have hother : (names == entry.1) = false := by rw [hkey]; exact hhead
      rw [List.filter_cons_of_neg (by simpa using hkey), ih, List.lookup_cons, hother]
    · rw [List.filter_cons_of_pos (by simpa using hkey), List.lookup_cons, List.lookup_cons, ih]

/-- Whatever leads to an entry still does. -/
lemma any_put (d : Disk) (bytes : ByteArray)
    (h : d.entries.any (fun (key, _) => names.isPrefixOf key) = true) :
    (d.put file bytes).entries.any (fun (key, _) => names.isPrefixOf key) = true := by
  obtain ⟨entry, hentry, hprefix⟩ := List.any_eq_true.mp h
  refine List.any_eq_true.mpr ?_
  by_cases hkey : entry.1 = file
  · exact ⟨(file, .file bytes), List.mem_cons_self, hkey ▸ hprefix⟩
  · exact ⟨entry, List.mem_cons_of_mem _ (List.mem_filter.mpr ⟨hentry, by simpa using hkey⟩),
      hprefix⟩

lemma enter_ok_iff : d.enter names = .ok () ↔ d.entry? names = some .directory := by
  rw [enter]
  constructor
  · intro h
    split at h
    · assumption
    · cases h
    · cases h
  · intro h
    rw [h]

/-- Directories stay directories when a file is written elsewhere. -/
lemma enter_put (hfile : d.entry? file ≠ some .directory) (h : d.enter names = .ok ()) :
    (d.put file bytes).enter names = .ok () := by
  rw [enter_ok_iff] at h ⊢
  have hne : names ≠ file := by
    rintro rfl
    exact hfile h
  unfold entry? at h ⊢
  rw [lookup_put d bytes hne]
  cases hlookup : d.entries.lookup names with
  | some e => rw [hlookup] at h; exact h
  | none =>
    rw [hlookup] at h
    simp only [Bool.or_eq_true] at h ⊢
    split at h
    · next hway => rw [if_pos (hway.imp_right (any_put d bytes))]
    · cases h

lemma walk_put (hfile : d.entry? file ≠ some .directory) {parts : List String} {last : Names}
    (h : d.walk names parts = .ok last) : (d.put file bytes).walk names parts = .ok last := by
  induction parts generalizing names with
  | nil => exact h
  | cons part parts ih =>
    rw [walk] at h ⊢
    split at h
    · cases h
    · next henter =>
      rw [enter_put hfile henter]
      simp only
      split at h
      · cases h
      · next hshort =>
        rw [if_neg hshort]
        exact ih h

lemma walk_append_singleton {parts : List String} {part : String} {middle : Names}
    (h : d.walk names parts = .ok middle) (henter : d.enter middle = .ok ())
    (hshort : isLongName part = false) :
    d.walk names (parts ++ [part]) = .ok (descend middle part) := by
  induction parts generalizing names with
  | nil =>
    cases h
    rw [List.nil_append, walk, henter]
    simp only [hshort]
    rfl
  | cons first parts ih =>
    rw [walk] at h
    rw [List.cons_append, walk]
    split at h
    · cases h
    · split at h
      · cases h
      · next hshort =>
        rw [if_neg hshort]
        exact ih h

/-! ### Texts -/

lemma fromUTF8_toUTF8 (text : String) : String.fromUTF8? text.toUTF8 = some text := by
  unfold String.fromUTF8?
  rw [String.toUTF8_eq_toByteArray, dif_pos text.isValidUTF8]
  rfl

lemma readText_of_readBytes (h : d.readBytes path = .ok text.toUTF8) :
    d.readText path = .ok text := by
  rw [readText, h]
  simp only [fromUTF8_toUTF8]

/-- A file to be written is named by the last step of its path, inside of a directory, and is no
directory itself. -/
lemma target_ok (h : d.target path = .ok file) :
    ∃ init last middle, refusal? path = none ∧ steps path = init ++ [last] ∧
      d.walk (d.origin path) init = .ok middle ∧ d.enter middle = .ok () ∧
      isLongName last = false ∧ descend middle last = file ∧ d.entry? file ≠ some .directory := by
  rw [target] at h
  split at h
  · cases h
  next hrefusal =>
  have hpath : path.isEmpty = false := by
    by_contra hempty
    rw [Bool.not_eq_false] at hempty
    simp only [refusal?, hempty, if_true] at hrefusal
    split at hrefusal <;> cases hrefusal
  cases hfile : namesDirectory path with
  | true =>
    -- a path that names a directory is refused, whatever it leads to
    simp only [hfile, if_true] at h
    split at h
    · cases h
    · split at h <;> cases h
  | false =>
    obtain ⟨init, last, hsteps, hlast⟩ := exists_steps hpath hfile
    have hnamed : ((steps path).reverse.dropWhile (·.isEmpty)).reverse = init ++ [last] := by
      rw [hsteps, List.reverse_append, List.reverse_singleton, List.singleton_append,
        List.dropWhile_cons_of_neg (by simp [hlast]), List.reverse_cons, List.reverse_reverse]
    have hdropLast : (init ++ [last]).dropLast = init := by simp
    have hgetLast : (init ++ [last]).getLastD "" = last := by simp
    simp only [hnamed, hdropLast, hgetLast, hfile, Bool.false_eq_true, if_false] at h
    split at h
    · cases h
    next middle hwalk =>
    split at h
    · cases h
    next henter =>
    split at h
    · cases h
    next hshort =>
    split at h
    · cases h
    next hentry =>
    cases h
    exact ⟨init, last, middle, hrefusal, hsteps, hwalk, henter, by simpa using hshort, rfl,
      hentry⟩

/-- **A text that is written is read again.** -/
theorem readText_of_writeText (h : d.writeText path text = .ok d') :
    d'.readText path = .ok text := by
  rw [writeText] at h
  split at h
  · cases h
  next file htarget =>
  cases h
  obtain ⟨init, last, middle, hrefusal, hsteps, hwalk, henter, hshort, rfl, hentry⟩ :=
    target_ok htarget
  have hfollow : (d.put (descend middle last) text.toUTF8).walk (d.origin path) (steps path) =
      .ok (descend middle last) := by
    rw [hsteps]
    exact walk_append_singleton (walk_put hentry hwalk) (enter_put hentry henter) hshort
  have horigin : (d.put (descend middle last) text.toUTF8).origin path = d.origin path := rfl
  rw [readText, readBytes, find, hrefusal]
  simp only [horigin, hfollow, entry_put_self, fromUTF8_toUTF8]

end RuneSolver.Disk
