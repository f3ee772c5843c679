import Mathlib.Data.List.Nodup
import RuneSolver.Disk.Basic
import RuneSolver.Proofs.Disk.Path

/-!
What a directory is listed to hold. Main statement: the files that stand directly inside of it,
once each.
-/

namespace RuneSolver.Disk

variable {d : Disk} {path name : String} {names : Names} {bytes : ByteArray}

/-- All entries are called as files and directories can be. -/
def HasNames (d : Disk) : Prop := ∀ entry ∈ d.entries, ∀ name ∈ entry.1, Path.IsName name.toList

lemma ne_empty_of_find {place : Names × Entry} (h : d.find path = .ok place) : path ≠ "" := by
  rintro rfl
  have hrefusal : refusal? "" = some .missing := by decide
  rw [find, hrefusal] at h
  cases h

/-- A file is an entry itself; nothing but a directory is on the way to one. -/
lemma mem_entries_of_file (h : d.entry? names = some (.file bytes)) :
    (names, .file bytes) ∈ d.entries := by
  unfold entry? at h
  split at h
  · next e hlookup =>
    cases h
    obtain ⟨before, after, hentries, -⟩ := List.lookup_eq_some_iff.mp hlookup
    rw [hentries]
    exact List.mem_append_right _ List.mem_cons_self
  · split at h
    · cases h
    · cases h

lemma HasNames.isName (h : d.HasNames) (hfile : d.entry? (names ++ [name]) = some (.file bytes)) :
    Path.IsName name.toList :=
  h _ (mem_entries_of_file hfile) name (by simp)

lemma child?_append_singleton (names : Names) (name : String) :
    child? names (names ++ [name]) = some name := by
  rw [child?, if_pos (List.isPrefixOf_iff_prefix.mpr (List.prefix_append names [name])),
    List.drop_left]
  rfl

/-- What is left without repetitions is left once. The length makes the recursion go through: it is
on a filtered list. -/
lemma nodup_eraseDups (xs : List String) : xs.eraseDups.Nodup := by
  induction hlength : xs.length using Nat.strong_induction_on generalizing xs with
  | _ n ih =>
    cases xs with
    | nil => simp
    | cons x xs =>
      rw [List.eraseDups_cons, List.nodup_cons]
      refine ⟨by simp, ih _ ?_ _ rfl⟩
      have hle := List.length_filter_le (fun y => !y == x) xs
      rw [← hlength, List.length_cons]
      omega

/-- **The files of a directory.** They are listed once each, whatever the order of the entries. -/
theorem fileNames_of_find (h : d.find path = .ok (names, .directory)) :
    ∃ files, d.fileNames path = .ok files ∧ files.Nodup ∧
      ∀ name, name ∈ files ↔ ∃ bytes, d.entry? (names ++ [name]) = some (.file bytes) := by
  refine ⟨_, by rw [fileNames, h], (nodup_eraseDups _).filter _, fun name => ?_⟩
  rw [List.mem_filter, List.mem_eraseDups, List.mem_filterMap]
  constructor
  · rintro ⟨-, hfile⟩
    split at hfile
    · next bytes hentry => exact ⟨bytes, hentry⟩
    · cases hfile
  · rintro ⟨bytes, hentry⟩
    refine ⟨⟨_, mem_entries_of_file hentry, child?_append_singleton names name⟩, ?_⟩
    rw [hentry]

end RuneSolver.Disk
