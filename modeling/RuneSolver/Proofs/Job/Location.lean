import RuneSolver.Job.Files
import RuneSolver.Proofs.Disk.Path

/-!
Where the file of a job is looked for that is no path itself. Main statement: it is among the jobs
of the data directory and is called as the name of the job, with the extension `json` in the place
of the one that the name has. Jobs of one directory whose names differ in their extensions only are
therefore looked for in one file.
-/

namespace RuneSolver.Job

variable {d : Disk} {dataDirectory job other : String} {name otherName : List Char}

/-- The path of a job among the jobs of the data directory, before its extension is looked at. -/
def namedPath (dataDirectory job : String) : List Char :=
  (Path.resolve (Path.push dataDirectory "jobs") job).toList

/-- What a job file is called. -/
def fileNameOf (name : List Char) : List Char := (Path.splitName name).1 ++ ".json".toList

/-- A job is called as the last part of its name. -/
lemma fileName?_namedPath {part : String} (dataDirectory : String)
    (h : (Path.parts job).getLast? = some part) (hname : Path.IsName part.toList) :
    Path.fileName? (namedPath dataDirectory job) = some part.toList := by
  refine Path.fileName?_resolve ?_ h hname
  by_cases hdata : dataDirectory = ""
  · rw [hdata]
    decide
  · exact Path.push_ne_empty hdata "jobs"

lemma toList_locate (dataDirectory : String) (hjob : d.contains job = false) :
    (locate d dataDirectory job).toList =
      if Path.extension? (namedPath dataDirectory job) = some "json".toList then
        namedPath dataDirectory job
      else Path.withExtension (namedPath dataDirectory job) "json".toList := by
  rw [locate, hjob, jobPath, namedPath, if_neg Bool.false_ne_true]
  split
  · rw [String.toList_ofList]
  · rw [String.toList_ofList]

/-- A job has its file in the directory that its path leads to. -/
lemma components_locate (hjob : d.contains job = false)
    (h : Path.fileName? (namedPath dataDirectory job) = some name) :
    Path.components (locate d dataDirectory job).toList =
      (Path.components (namedPath dataDirectory job)).dropLast ++ [fileNameOf name] := by
  rw [toList_locate dataDirectory hjob]
  split
  · next hjson =>
    rw [Path.extension?, h, Option.bind_some] at hjson
    obtain ⟨front, hfront⟩ := List.getLast?_eq_some_iff.mp (Path.fileName?_eq_some h).1
    rcases Path.splitName_cases name with ⟨-, hsplit⟩ | ⟨stem, extension, -, -, hname, hsplit⟩
    · rw [hsplit] at hjson
      cases hjson
    · rw [hsplit, Option.some.injEq] at hjson
      rw [hfront, List.dropLast_concat, fileNameOf, hsplit, hname, hjson]
      rfl
  · have hslash : '/' ∉ "json".toList := by decide
    obtain ⟨-, -, -, -, -, hcomponents⟩ := Path.withExtension_eq h hslash
    exact hcomponents

/-- **Where a job is looked for.** A path that ends in no name stays as it is. Otherwise
the extension is appended to a name without one and takes the place of another one, and two jobs
have one file just if their paths lead to one directory and their names agree up to the last
point. -/
theorem locate_of_not_contains (dataDirectory : String) (hjob : d.contains job = false) :
    (∀ part, (Path.parts job).getLast? = some part → Path.IsName part.toList →
      Path.fileName? (namedPath dataDirectory job) = some part.toList) ∧
    (Path.fileName? (namedPath dataDirectory job) = none →
      (locate d dataDirectory job).toList = namedPath dataDirectory job) ∧
    ∀ name, Path.fileName? (namedPath dataDirectory job) = some name →
      (∃ before after, namedPath dataDirectory job = before ++ name ++ after ∧
        (∀ c ∈ after, c = '/' ∨ c = '.') ∧
        ('.' ∉ name.tail →
          (locate d dataDirectory job).toList = before ++ name ++ ".json".toList) ∧
        ∀ stem extension, name = stem ++ '.' :: extension → stem ≠ [] → '.' ∉ extension →
          (locate d dataDirectory job).toList =
            if extension = "json".toList then namedPath dataDirectory job
            else before ++ stem ++ ".json".toList) ∧
      ∀ other otherName, d.contains other = false →
        Path.fileName? (namedPath dataDirectory other) = some otherName →
        (Path.components (locate d dataDirectory job).toList =
            Path.components (locate d dataDirectory other).toList ↔
          (Path.components (namedPath dataDirectory job)).dropLast =
              (Path.components (namedPath dataDirectory other)).dropLast ∧
            (Path.splitName name).1 = (Path.splitName otherName).1) := by
  refine ⟨fun part => fileName?_namedPath dataDirectory, fun hnone => ?_,
    fun name hname => ⟨?_, fun other otherName hother hotherName => ?_⟩⟩
  · rw [toList_locate dataDirectory hjob, Path.extension?, Path.withExtension, hnone]
    rfl
  · have hslash : '/' ∉ "json".toList := by decide
    obtain ⟨before, after, hpath, hafter, htext, -⟩ := Path.withExtension_eq hname hslash
    refine ⟨before, after, hpath, hafter, fun hpoint => ?_, ?_⟩
    · rw [toList_locate dataDirectory hjob, Path.extension?, hname, htext]
      simp only [Option.bind_some, Path.splitName_of_notMem hpoint, reduceCtorEq, if_false]
      rfl
    · intro stem extension heq hstem hextension
      rw [toList_locate dataDirectory hjob, Path.extension?, hname, htext, heq]
      simp only [Option.bind_some, Path.splitName_append hstem hextension, Option.some.injEq]
      rfl
  · rw [components_locate hjob hname, components_locate hother hotherName, fileNameOf, fileNameOf,
      ← List.concat_eq_append, ← List.concat_eq_append, List.concat_inj, List.append_left_inj]

/-- A version of a job shares its file with the job, but not with another job. -/
theorem locate_of_not_contains_version :
    (Disk.mk [] []).contains "old/night.v2" = false ∧
      Path.components (locate ⟨[], []⟩ "data" "old/night.v2").toList =
        Path.components (locate ⟨[], []⟩ "data" "old\\night").toList ∧
      Path.components (locate ⟨[], []⟩ "data" "old/night.v2").toList ≠
        Path.components (locate ⟨[], []⟩ "data" "old/day.v2").toList := by
  have hjob : (Disk.mk [] []).contains "old/night.v2" = false := by decide +kernel
  have hname : Path.fileName? (namedPath "data" "old/night.v2") = some "night.v2".toList := by
    decide +kernel
  obtain ⟨-, hfiles⟩ := (locate_of_not_contains "data" hjob).2.2 _ hname
  refine ⟨hjob, (hfiles "old\\night" "night".toList ?_ ?_).mpr ?_,
    fun heq => absurd ((hfiles "old/day.v2" "day.v2".toList ?_ ?_).mp heq) ?_⟩
  all_goals decide +kernel

/-- Two versions of a job, neither of them with the extension of a job file, in one file. -/
theorem locate_same_file :
    (Disk.mk [] []).contains "night.v2" = false ∧ (Disk.mk [] []).contains "night.v3" = false ∧
      namedPath "data" "night.v2" = "data/jobs/night.v2".toList ∧
      namedPath "data" "night.v3" = "data/jobs/night.v3".toList ∧
      locate ⟨[], []⟩ "data" "night.v2" = "data/jobs/night.json" ∧
      locate ⟨[], []⟩ "data" "night.v3" = "data/jobs/night.json" := by
  decide +kernel

end RuneSolver.Job
