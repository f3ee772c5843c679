import Mathlib.Data.List.Sort
import RuneSolver.Job.Files
import RuneSolver.Proofs.Disk.Listing

/-!
The documents that a job selects, and the listed names that it reports as missing. Main statement:
the selection is exactly what the directory holds under a listed name, in the order of the names
and once each. Names that are no path are reported just if they are not selected; other listed
texts are reported just if no selected path has their components at its end, so `1.txt/` is not
reported beside a selected `1.txt`, and neither is a path through the directory itself.
-/

namespace RuneSolver.Job

variable {d : Disk} {dataDirectory directory : String} {s : Settings} {names : Names}
  {fileNames listed chosen : List String}

/-- The listed names that stand for none of the chosen files of a directory. -/
def missingAmong (directory : String) (chosen listed : List String) : List String :=
  listed.filter fun name => ∀ file ∈ chosen,
    ¬ Path.components name.toList <:+ Path.components directory.toList ++ [file.toList]

/-- Names that are sorted ascend strictly when none is repeated. -/
lemma pairwise_lt_mergeSort {names : List String} (h : names.Nodup) :
    (names.mergeSort (· ≤ ·)).Pairwise (· < ·) := by
  have hle : (names.mergeSort (· ≤ ·)).Pairwise (· ≤ ·) :=
    List.pairwise_mergeSort' (· ≤ ·) names
  have hnodup : (names.mergeSort (· ≤ ·)).Nodup :=
    (List.mergeSort_perm names _).nodup_iff.mpr h
  refine hle.imp₂ (fun _ _ hab hne => ?_) hnodup
  exact String.not_le.mp fun hba => hne (String.le_antisymm hab hba)

/-- What is missing depends on the components of the selected paths only. -/
lemma selectAmong_eq (hdirectory : directory ≠ "")
    (hnames : ∀ file ∈ fileNames, Path.IsName file.toList) :
    selectAmong directory fileNames listed =
      let chosen := (fileNames.filter fun name => listed.contains name).mergeSort (· ≤ ·)
      ⟨directory, chosen.map (Path.push directory), missingAmong directory chosen listed⟩ := by
  have hends : ∀ file ∈ fileNames, ∀ name,
      Path.endsWith (Path.push directory file).toList name = true ↔
        Path.components name <:+ Path.components directory.toList ++ [file.toList] := by
    intro file hfile name
    rw [Path.endsWith, Path.components_push_name hdirectory (hnames file hfile),
      List.isSuffixOf_iff_suffix]
  simp only [selectAmong, missingAmong, Selection.mk.injEq, true_and]
  refine List.filter_congr fun name _ => ?_
  rw [Bool.eq_iff_iff, decide_eq_true_eq, Bool.not_eq_true', List.any_map, List.any_eq_false]
  refine forall₂_congr fun file hfile => not_congr (hends file ?_ name.toList)
  exact (List.mem_filter.mp (List.mem_mergeSort.mp hfile)).1

/-- A name that is no path is missing just if it is not chosen. -/
lemma mem_missingAmong_of_isName {name : String} (hname : Path.IsName name.toList) :
    name ∈ missingAmong directory chosen listed ↔ name ∈ listed ∧ name ∉ chosen := by
  rw [missingAmong, List.mem_filter, hname.components_eq, decide_eq_true_eq]
  simp only [List.singleton_suffix_append_singleton_iff, String.toList_inj]
  rw [List.forall_mem_ne]

/-- **The selection of the documents.** It is found in every directory that can be listed. The
names of its paths ascend, and they are those that are listed and those of files in the directory;
what is reported depends on the components of the paths, and for names that are no paths on
equality. -/
theorem select_of_find
    (hdirectory : d.find (Path.resolve dataDirectory s.datafileDirectory) = .ok (names, .directory))
    (hnames : d.HasNames) :
    let directory := Path.resolve dataDirectory s.datafileDirectory
    ∃ chosen : List String, chosen.Pairwise (· < ·) ∧
      (∀ name, name ∈ chosen ↔ name ∈ s.fileNamesToDecrypt ∧
        ∃ bytes, d.entry? (names ++ [name]) = some (.file bytes)) ∧
      select d dataDirectory s = .ok ⟨directory, chosen.map (Path.push directory),
        missingAmong directory chosen s.fileNamesToDecrypt⟩ ∧
      ∀ name, Path.IsName name.toList →
        (name ∈ missingAmong directory chosen s.fileNamesToDecrypt ↔
          name ∈ s.fileNamesToDecrypt ∧ name ∉ chosen) := by
  intro directory
  obtain ⟨files, hfiles, hnodup, hmem⟩ := Disk.fileNames_of_find hdirectory
  have hfile : ∀ file ∈ files, Path.IsName file.toList := fun file hfile =>
    have ⟨_, hentry⟩ := (hmem file).mp hfile
    hnames.isName hentry
  refine ⟨_, pairwise_lt_mergeSort
    (hnodup.filter fun name => s.fileNamesToDecrypt.contains name), fun name => ?_, ?_,
    fun name => mem_missingAmong_of_isName⟩
  · rw [List.mem_mergeSort, List.mem_filter, hmem, List.contains_iff_mem, and_comm]
  · rw [select, hfiles]
    exact congrArg Except.ok (selectAmong_eq (Disk.ne_empty_of_find hdirectory) hfile)

/-- Two documents and a directory beside them. -/
def sectionsDisk : Disk :=
  ⟨[], [(["data", "sections", "2.txt"], .file "AB".toUTF8),
    (["data", "sections", "old"], .directory), (["data", "sections", "1.txt"], .file "A".toUTF8)]⟩

lemma hasNames_sectionsDisk : sectionsDisk.HasNames := by
  have hnames : ∀ entry ∈ sectionsDisk.entries, ∀ name ∈ entry.1, Path.IsName name.toList := by
    simp only [sectionsDisk, List.forall_mem_cons]
    decide
  exact hnames

/-- The default settings with other documents. -/
def sectionsSettings (listed : List String) : Settings :=
  { Settings.default with fileNamesToDecrypt := listed }

lemma find_sectionsDisk (listed : List String) :
    sectionsDisk.find (Path.resolve "data" (sectionsSettings listed).datafileDirectory) =
      .ok (["data", "sections"], .directory) := by
  have hpath : Path.resolve "data" "sections/" = "data/sections" := by decide
  have hdirectory : (sectionsSettings listed).datafileDirectory = "sections/" := rfl
  rw [hdirectory, hpath]
  rfl

/-- A directory under a listed name is no document, and is reported. -/
theorem select_of_find_sections :
    sectionsDisk.HasNames ∧ ∃ selection,
      select sectionsDisk "data" (sectionsSettings ["2.txt", "old", "1.txt", "2.txt"]) =
        .ok selection ∧
      "old" ∈ selection.missing ∧ "1.txt" ∉ selection.missing := by
  obtain ⟨chosen, -, hmem, hselect, hmissing⟩ :=
    select_of_find (find_sectionsDisk ["2.txt", "old", "1.txt", "2.txt"]) hasNames_sectionsDisk
  refine ⟨hasNames_sectionsDisk, _, hselect, (hmissing "old" (by decide)).mpr ⟨by decide, ?_⟩, ?_⟩
  · rw [hmem]
    rintro ⟨-, bytes, hentry⟩
    cases hentry
  · rw [hmissing "1.txt" (by decide), hmem]
    exact fun h => h.2 ⟨by decide, _, rfl⟩

/-- Three listed texts that are called as no document are not reported, since all of them have the
components that the path of `1.txt` ends with. -/
theorem select_unreported :
    select sectionsDisk "data" (sectionsSettings ["1.txt", "sections/1.txt", "1.txt/", ""]) =
      .ok ⟨"data/sections", ["data/sections/1.txt"], []⟩ := by
  decide +kernel

end RuneSolver.Job
