import RuneSolver.Proofs.Cipher.Translation
import RuneSolver.Proofs.Job.Progress

/-!
A job on many tasks. Every document has a task of its own, which loads it and then tries one formula
after the other; tasks advance in any order, and the runner collects their outcomes in the order in
which it started them. Main statement: whatever the order, a job comes to its end, and then its
reports are those of the run that does one document after the other.
-/

namespace RuneSolver.Job

/-! ### Tasks -/

/-- How far a task has come. -/
inductive Stage where
  | waiting
  | searching (document : Cipher.Document) (state : Stack × Option Cipher.Candidate)
    (left : List Formula)
  | finished (outcome : Except Failure (Option Cipher.Candidate))

/-- The task of a document. -/
structure Task where
  path : String
  stage : Stage

section Tasks

variable (d : Disk) (s : Cipher.Solver) (formulas : List Formula)

namespace Task

/-- The next step of a task: it loads its document, tries a formula, or has tried them all. -/
def step? (t : Task) : Option Task :=
  match t.stage with
  | .waiting =>
    match loadDocument d t.path with
    | .error e => some ⟨t.path, .finished (.error e)⟩
    | .ok document => some ⟨t.path, .searching document ([], none) formulas⟩
  | .searching document state (f :: left) =>
    some ⟨t.path, .searching document (s.tryFormula document state f) left⟩
  | .searching _ state [] => some ⟨t.path, .finished (.ok state.2)⟩
  | .finished _ => none

/-- What a task will come to. -/
def outcome (t : Task) : Except Failure (Option Cipher.Candidate) :=
  match t.stage with
  | .waiting => search d s formulas t.path
  | .searching document state left => .ok (left.foldl (s.tryFormula document) state).2
  | .finished outcome => outcome

/-- A bound on the steps that a task still takes. -/
def stepsLeft (t : Task) : ℕ :=
  match t.stage with
  | .waiting => formulas.length + 2
  | .searching _ _ left => left.length + 1
  | .finished _ => 0

variable {d s formulas} {t t' : Task}

/-- **A step of a task** changes neither its document nor what it will come to. -/
lemma step?_eq_some (h : t.step? d s formulas = some t') :
    t'.path = t.path ∧ t'.outcome d s formulas = t.outcome d s formulas ∧
      t'.stepsLeft formulas < t.stepsLeft formulas := by
  obtain ⟨path, stage⟩ := t
  cases stage with
  | waiting =>
    rw [step?] at h
    simp only at h
    cases hload : loadDocument d path with
    | error e =>
      rw [hload] at h
      cases h
      refine ⟨rfl, ?_, Nat.succ_pos _⟩
      rw [outcome, outcome, search, hload]
      rfl
    | ok document =>
      rw [hload] at h
      cases h
      refine ⟨rfl, ?_, Nat.lt_succ_self _⟩
      rw [outcome, outcome, search, hload]
      rfl
  | searching document state left =>
    cases left with
    | nil => cases h; exact ⟨rfl, rfl, Nat.succ_pos _⟩
    | cons f left => cases h; exact ⟨rfl, rfl, Nat.lt_succ_self _⟩
  | finished outcome => cases h

/-- A task that cannot go on is finished. -/
lemma exists_finished (h : t.step? d s formulas = none) :
    ∃ outcome, t = ⟨t.path, .finished outcome⟩ := by
  obtain ⟨path, stage⟩ := t
  cases stage with
  | waiting =>
    rw [step?] at h
    simp only at h
    cases hload : loadDocument d path <;> rw [hload] at h <;> cases h
  | searching document state left => cases left <;> cases h
  | finished outcome => exact ⟨outcome, rfl⟩

end Task

end Tasks

/-! ### The crew -/

/-- The tasks of a job and its runner: the paths for which there is no task yet, the numbers of the
tasks that are not collected, and the weights of their documents. -/
structure Crew where
  unassigned : List String
  tasks : List Task
  handles : List ℕ
  weights : List UInt64
  progress : Progress
  reports : List Report

/-- What happens next: the runner makes a task, a task advances, or the runner collects the outcome
of the next task. -/
inductive Move where
  | assign
  | work (task : ℕ)
  | collect
  deriving DecidableEq, Repr

namespace Crew

/-- A job whose documents are weighed, if the weights have a sum. -/
def start? (d : Disk) (paths : List String) : Option Crew :=
  let weights := paths.map (weight d)
  (Word.sum? weights).map fun total => ⟨paths, [], [], weights, Progress.start total, []⟩

/-- The crew with a task for one more path. -/
def assign (c : Crew) (path : String) (unassigned : List String) : Crew :=
  { c with
    unassigned := unassigned
    tasks := c.tasks ++ [⟨path, .waiting⟩]
    handles := c.handles ++ [c.tasks.length] }

/-- The crew with a task as it is after a step. -/
def advance (c : Crew) (i : ℕ) (t : Task) : Crew := { c with tasks := c.tasks.set i t }

/-- The crew with the report of one more task and the progress at it, and the handles and weights
that are left. -/
def collect (c : Crew) (path : String) (outcome : Except Failure (Option Cipher.Candidate))
    (handles : List ℕ) (weights : List UInt64) (next : Progress) : Crew :=
  { c with
    handles := handles
    weights := weights
    progress := next
    reports := c.reports ++ [⟨path, outcome, next⟩] }

@[simp] lemma tasks_assign (c : Crew) (path : String) (unassigned : List String) :
    (c.assign path unassigned).tasks = c.tasks ++ [⟨path, .waiting⟩] := rfl

@[simp] lemma tasks_advance (c : Crew) (i : ℕ) (t : Task) :
    (c.advance i t).tasks = c.tasks.set i t := rfl

@[simp] lemma reports_collect (c : Crew) (path : String)
    (outcome : Except Failure (Option Cipher.Candidate)) (handles : List ℕ)
    (weights : List UInt64) (next : Progress) :
    (c.collect path outcome handles weights next).reports =
      c.reports ++ [⟨path, outcome, next⟩] := rfl

section Moves

variable (d : Disk) (s : Cipher.Solver) (formulas : List Formula)

/-- The crew after a move, if it can make it. The runner collects when every path has its task, and
waits for a task that is not finished; it cannot collect what it cannot record. -/
def step? (c : Crew) : Move → Option Crew
  | .assign =>
    match c.unassigned with
    | [] => none
    | path :: unassigned => some (c.assign path unassigned)
  | .work i => (c.tasks[i]?.bind (Task.step? d s formulas)).map (c.advance i)
  | .collect =>
    -- the weights were found before there were tasks; handles and weights are taken in step
    match c.unassigned, c.handles, c.weights with
    | [], i :: handles, weight :: weights =>
      match c.tasks[i]? with
      | some ⟨path, .finished outcome⟩ =>
        (c.progress.record? weight).map (c.collect path outcome handles weights)
      | _ => none
    | _, _, _ => none

/-- The crew after moves, if it can make all of them. -/
def run? : Crew → List Move → Option Crew
  | c, [] => some c
  | c, move :: moves => (c.step? d s formulas move).bind fun next => next.run? moves

end Moves

/-- Every path has its task, and the runner has come to the end of the handles or of the weights,
whichever is first. -/
def Done (c : Crew) : Prop := c.unassigned = [] ∧ (c.handles = [] ∨ c.weights = [])

section Steps

variable {d : Disk} {s : Cipher.Solver} {formulas : List Formula} {paths : List String}
  {c c' : Crew} {move : Move} {reports : List Report}

/-- What the moves do, and when they can be made. -/
lemma step?_cases (h : c.step? d s formulas move = some c') :
    (∃ path unassigned, move = .assign ∧ c.unassigned = path :: unassigned ∧
      c' = c.assign path unassigned) ∨
    (∃ i t t', move = .work i ∧ c.tasks[i]? = some t ∧ t.step? d s formulas = some t' ∧
      c' = c.advance i t') ∨
    ∃ i handles weight weights path outcome next, move = .collect ∧ c.unassigned = [] ∧
      c.handles = i :: handles ∧ c.weights = weight :: weights ∧
      c.tasks[i]? = some ⟨path, .finished outcome⟩ ∧ c.progress.record? weight = some next ∧
      c' = c.collect path outcome handles weights next := by
  cases move with
  | assign =>
    rw [step?] at h
    cases hpaths : c.unassigned with
    | nil => rw [hpaths] at h; cases h
    | cons path unassigned =>
      rw [hpaths] at h
      cases h
      exact .inl ⟨path, unassigned, rfl, rfl, rfl⟩
  | work i =>
    obtain ⟨t', ht, rfl⟩ := Option.map_eq_some_iff.mp h
    obtain ⟨t, hi, hstep⟩ := Option.bind_eq_some_iff.mp ht
    exact .inr (.inl ⟨i, t, t', rfl, hi, hstep, rfl⟩)
  | collect =>
    rw [step?] at h
    split at h
    · next i handles weight weights hpaths hhandles hweights =>
      split at h
      · next path outcome htask =>
        obtain ⟨next, hnext, rfl⟩ := Option.map_eq_some_iff.mp h
        exact .inr (.inr ⟨i, handles, weight, weights, path, outcome, next, rfl, hpaths, hhandles,
          hweights, htask, hnext, rfl⟩)
      · cases h
    · cases h

/-- The crew is on its way to the reports of the run that does one document after the other: the
run of the paths for which there is no report adds what is missing. -/
structure Follows (d : Disk) (s : Cipher.Solver) (formulas : List Formula) (paths : List String)
    (reports : List Report) (c : Crew) : Prop where
  paths_eq : paths = c.tasks.map (·.path) ++ c.unassigned
  outcome_eq : ∀ t ∈ c.tasks, t.outcome d s formulas = search d s formulas t.path
  collected_le : c.reports.length ≤ c.tasks.length
  handles_eq : c.handles = List.range' c.reports.length (c.tasks.length - c.reports.length)
  weights_eq : c.weights = (paths.drop c.reports.length).map (weight d)
  run_eq : ∃ later, c.reports ++ later = reports ∧
    runFrom d s formulas c.progress (paths.drop c.reports.length) = some later

/-- Where there is a run, a crew can start on its way to the reports. -/
lemma exists_start? (h : run d s formulas paths = some reports) :
    ∃ first, start? d paths = some first ∧ first.Follows d s formulas paths reports ∧
      first.unassigned = paths ∧ first.tasks = [] ∧ first.handles = [] := by
  rw [run, Option.bind_eq_bind, Option.bind_eq_some_iff] at h
  obtain ⟨total, htotal, hrun⟩ := h
  refine ⟨_, congrArg (Option.map _) htotal, ?_, rfl, rfl, rfl⟩
  exact ⟨rfl, fun t ht => absurd ht List.not_mem_nil, Nat.le_refl 0, rfl, rfl, reports, rfl, hrun⟩

lemma Follows.assign (hc : c.Follows d s formulas paths reports) {path : String}
    {unassigned : List String} (hpaths : c.unassigned = path :: unassigned) :
    (c.assign path unassigned).Follows d s formulas paths reports := by
  have hle := hc.collected_le
  have hlength : (c.assign path unassigned).tasks.length = c.tasks.length + 1 :=
    List.length_append
  refine ⟨?_, List.forall_mem_append.mpr ⟨hc.outcome_eq, List.forall_mem_singleton.mpr rfl⟩,
    hlength ▸ Nat.le_succ_of_le hle, ?_, hc.weights_eq, hc.run_eq⟩
  · rw [tasks_assign, List.map_append, List.map_singleton, List.append_assoc,
      List.singleton_append]
    exact hpaths ▸ hc.paths_eq
  · have hlast : c.reports.length + 1 * (c.tasks.length - c.reports.length) = c.tasks.length := by
      omega
    change c.handles ++ [c.tasks.length] =
      List.range' c.reports.length ((c.assign path unassigned).tasks.length - c.reports.length)
    rw [hlength, Nat.succ_sub hle, List.range'_concat, hlast, hc.handles_eq]

lemma Follows.advance (hc : c.Follows d s formulas paths reports) {i : ℕ} {t t' : Task}
    (hi : c.tasks[i]? = some t) (hstep : t.step? d s formulas = some t') :
    (c.advance i t').Follows d s formulas paths reports := by
  obtain ⟨hpath, houtcome, -⟩ := Task.step?_eq_some hstep
  obtain ⟨hlt, rfl⟩ := List.getElem?_eq_some_iff.mp hi
  refine ⟨?_, fun u hu => ?_, ?_, ?_, hc.weights_eq, hc.run_eq⟩
  · have hsame : (c.tasks.map (·.path)).set i t'.path = c.tasks.map (·.path) := by
      rw [hpath, ← List.getElem_map Task.path (h := by rwa [List.length_map]),
        List.set_getElem_self]
    rw [tasks_advance, List.map_set, hsame]
    exact hc.paths_eq
  · rcases List.mem_or_eq_of_mem_set hu with hu | rfl
    · exact hc.outcome_eq u hu
    · rw [houtcome, hpath]
      exact hc.outcome_eq _ (List.getElem_mem hlt)
  · rw [tasks_advance, List.length_set]
    exact hc.collected_le
  · rw [tasks_advance, List.length_set]
    exact hc.handles_eq

lemma Follows.collect (hc : c.Follows d s formulas paths reports) {i : ℕ} {handles : List ℕ}
    {weight : UInt64} {weights : List UInt64} {path : String}
    {outcome : Except Failure (Option Cipher.Candidate)} {next : Progress}
    (hpaths : c.unassigned = []) (hhandles : c.handles = i :: handles)
    (hweights : c.weights = weight :: weights)
    (htask : c.tasks[i]? = some ⟨path, .finished outcome⟩)
    (hnext : c.progress.record? weight = some next) :
    (c.collect path outcome handles weights next).Follows d s formulas paths reports := by
  obtain ⟨rfl, hpos, rfl⟩ := List.range'_eq_cons_iff.mp (hc.handles_eq.symm.trans hhandles)
  have houtcome : outcome = search d s formulas path :=
    hc.outcome_eq ⟨path, .finished outcome⟩ (List.mem_of_getElem? htask)
  have hpath : paths[c.reports.length]? = some path := by
    rw [hc.paths_eq, hpaths, List.append_nil, List.getElem?_map, htask]
    rfl
  have hdrop : paths.drop c.reports.length = path :: paths.drop (c.reports.length + 1) := by
    obtain ⟨hlt, hget⟩ := List.getElem?_eq_some_iff.mp hpath
    rw [List.drop_eq_getElem_cons hlt, hget]
  obtain ⟨rfl, rfl⟩ : Job.weight d path = weight ∧
      (paths.drop (c.reports.length + 1)).map (Job.weight d) = weights := by
    rw [hc.weights_eq, hdrop] at hweights
    exact List.cons_eq_cons.mp hweights
  refine ⟨hc.paths_eq, hc.outcome_eq, ?_, ?_, ?_, ?_⟩ <;>
    simp only [reports_collect, List.length_append, List.length_singleton]
  · change c.reports.length + 1 ≤ c.tasks.length
    omega
  · exact congrArg (List.range' _) (Nat.sub_sub _ _ _)
  · rfl
  · obtain ⟨later, hall, hrun⟩ := hc.run_eq
    rw [hdrop, runFrom_cons_eq_some_iff, hnext] at hrun
    obtain ⟨_, ⟨⟩, rest, hrest, rfl⟩ := hrun
    exact ⟨rest, by rw [← hall, houtcome, List.append_assoc]; rfl, hrest⟩

/-- **A move keeps the crew on its way.** -/
lemma Follows.step (hc : c.Follows d s formulas paths reports)
    (h : c.step? d s formulas move = some c') : c'.Follows d s formulas paths reports := by
  obtain ⟨path, unassigned, -, hpaths, rfl⟩ | ⟨i, t, t', -, hi, hstep, rfl⟩ |
    ⟨i, handles, weight, weights, path, outcome, next, -, hpaths, hhandles, hweights, htask, hnext,
      rfl⟩ := step?_cases h
  · exact hc.assign hpaths
  · exact hc.advance hi hstep
  · exact hc.collect hpaths hhandles hweights htask hnext

/-- So do all moves. -/
lemma Follows.run_moves {moves : List Move} (hc : c.Follows d s formulas paths reports)
    (h : c.run? d s formulas moves = some c') : c'.Follows d s formulas paths reports := by
  induction moves generalizing c with
  | nil => cases h; exact hc
  | cons move moves ih =>
    obtain ⟨next, hstep, hrest⟩ := Option.bind_eq_some_iff.mp h
    exact ih (hc.step hstep) hrest

/-! ### The end of a job -/

/-- A bound on the moves that a crew still makes. -/
def stepsLeft (formulas : List Formula) (c : Crew) : ℕ :=
  c.unassigned.length * (formulas.length + 4) + (c.tasks.map (Task.stepsLeft formulas)).sum +
    c.handles.length

/-- Every move brings the end of the job closer. -/
lemma stepsLeft_step (h : c.step? d s formulas move = some c') :
    c'.stepsLeft formulas < c.stepsLeft formulas := by
  obtain ⟨path, unassigned, -, hpaths, rfl⟩ | ⟨i, t, t', -, hi, hstep, rfl⟩ |
    ⟨i, handles, weight, weights, path, outcome, next, -, hpaths, hhandles, hweights, htask, hnext,
      rfl⟩ := step?_cases h
  · have hwaiting : Task.stepsLeft formulas ⟨path, .waiting⟩ = formulas.length + 2 := rfl
    have hhandles : (c.assign path unassigned).handles.length = c.handles.length + 1 :=
      List.length_append
    have hrest : (c.assign path unassigned).unassigned = unassigned := rfl
    simp only [stepsLeft, hpaths, hrest, hhandles, hwaiting, tasks_assign, List.map_append,
      List.map_singleton, List.sum_append, List.sum_singleton, List.length_cons, Nat.add_mul]
    omega
  · obtain ⟨-, -, hless⟩ := Task.step?_eq_some hstep
    obtain ⟨hlt, rfl⟩ := List.getElem?_eq_some_iff.mp hi
    have hsum : ((c.tasks.set i t').map (Task.stepsLeft formulas)).sum <
        (c.tasks.map (Task.stepsLeft formulas)).sum := by
      have hold := congrArg (fun tasks => (tasks.map (Task.stepsLeft formulas)).sum)
        (List.take_append_drop i c.tasks)
      rw [List.set_eq_take_append_cons_drop, if_pos hlt, ← hold, List.drop_eq_getElem_cons hlt]
      simp only [List.map_append, List.map_cons, List.sum_append, List.sum_cons]
      omega
    exact Nat.add_lt_add_right (Nat.add_lt_add_left hsum _) _
  · have hless : handles.length < c.handles.length := by
      rw [hhandles, List.length_cons]
      omega
    exact Nat.add_lt_add_left hless _

lemma stepsLeft_run {moves : List Move} (h : c.run? d s formulas moves = some c') :
    moves.length + c'.stepsLeft formulas ≤ c.stepsLeft formulas := by
  induction moves generalizing c with
  | nil => cases h; exact Nat.le_of_eq (Nat.zero_add _)
  | cons move moves ih =>
    obtain ⟨next, hstep, hrest⟩ := Option.bind_eq_some_iff.mp h
    have hless := stepsLeft_step hstep
    have hleft := ih hrest
    rw [List.length_cons]
    omega

/-- The weight of the next document can always be recorded. -/
lemma Follows.exists_record? (hc : c.Follows d s formulas paths reports) {weight : UInt64}
    {weights : List UInt64} (hweights : c.weights = weight :: weights) :
    ∃ next, c.progress.record? weight = some next := by
  obtain ⟨later, -, hrun⟩ := hc.run_eq
  have hrest := hc.weights_eq.symm.trans hweights
  cases hdrop : paths.drop c.reports.length with
  | nil =>
    rw [hdrop] at hrest
    cases hrest
  | cons path rest =>
    rw [hdrop] at hrest hrun
    cases hrest
    obtain ⟨next, hnext, -⟩ := runFrom_cons_eq_some_iff.mp hrun
    exact ⟨next, hnext⟩

/-- A crew that is not done can make a move: where the runner has to wait for a task, this task can
advance. -/
lemma Follows.exists_step (hc : c.Follows d s formulas paths reports) (hdone : ¬c.Done) :
    ∃ move, (c.step? d s formulas move).isSome := by
  cases hpaths : c.unassigned with
  | cons path unassigned => exact ⟨.assign, by rw [step?, hpaths]; rfl⟩
  | nil =>
    cases hhandles : c.handles with
    | nil => exact absurd ⟨hpaths, .inl hhandles⟩ hdone
    | cons i handles =>
      cases hweights : c.weights with
      | nil => exact absurd ⟨hpaths, .inr hweights⟩ hdone
      | cons weight weights =>
        obtain ⟨rfl, hpos, -⟩ := List.range'_eq_cons_iff.mp (hc.handles_eq.symm.trans hhandles)
        obtain ⟨t, ht⟩ : ∃ t, c.tasks[c.reports.length]? = some t :=
          ⟨_, List.getElem?_eq_getElem (by omega)⟩
        cases hstep : t.step? d s formulas with
        | some t' =>
          refine ⟨.work c.reports.length, ?_⟩
          rw [step?, ht, Option.bind_some, hstep]
          rfl
        | none =>
          obtain ⟨outcome, hfinished⟩ := Task.exists_finished hstep
          rw [hfinished] at ht
          obtain ⟨next, hnext⟩ := hc.exists_record? hweights
          refine ⟨.collect, ?_⟩
          rw [step?, hpaths, hhandles, hweights]
          simp only [ht, hnext]
          rfl

/-- At the end there is a report for every path. -/
lemma Follows.reports_eq (hc : c.Follows d s formulas paths reports) (hdone : c.Done) :
    c.reports = reports := by
  obtain ⟨hpaths, hends⟩ := hdone
  have hlength := congrArg List.length hc.paths_eq
  rw [hpaths, List.append_nil, List.length_map] at hlength
  have hall : paths.length ≤ c.reports.length := by
    rcases hends with hhandles | hweights
    · have hcount := congrArg List.length hc.handles_eq
      rw [hhandles, List.length_range', List.length_nil] at hcount
      omega
    · have hcount := congrArg List.length hc.weights_eq
      rw [hweights, List.length_map, List.length_drop, List.length_nil] at hcount
      omega
  obtain ⟨later, hreports, hrun⟩ := hc.run_eq
  rw [List.drop_of_length_le hall] at hrun
  cases hrun
  rw [← hreports, List.append_nil]

/-- **A job on many tasks.** As long as the lines of all documents can be counted, the job starts.
Tasks and runner may move in any order. They come to an end after a bounded number of moves, and
before the end there is always a move to make; what is collected is always a first part of the run
that does one document after the other. At the end there is one report for each path, in the order
of the paths, with the outcome of loading and searching this document alone; its progress is that
exactly the lines of this document and of those before it are done. So the percentages never
decrease, and the last one is a hundred. -/
theorem reports_of_moves (s : Cipher.Solver) (formulas : List Formula)
    (h : lineTotal d paths < 2 ^ 64) :
    ∃ first reports, start? d paths = some first ∧ run d s formulas paths = some reports ∧
      ∀ moves c, first.run? d s formulas moves = some c →
        moves.length ≤ paths.length * (formulas.length + 4) ∧
        (c.Done ∨ ∃ move, (c.step? d s formulas move).isSome) ∧
        c.reports <+: reports ∧
        (c.Done →
          c.reports.length = paths.length ∧
          (∀ (i : ℕ) (path : String), paths[i]? = some path →
            ∃ r, c.reports[i]? = some r ∧ r.path = path ∧
              r.outcome = (loadDocument d path).map (s.search formulas) ∧
              r.progress.total.toNat = lineTotal d paths ∧
              r.progress.done.toNat = lineTotal d (paths.take (i + 1))) ∧
          (c.reports.map (·.progress.ratio)).Pairwise (· ≤ ·) ∧
          (paths ≠ [] → c.reports.getLast?.map (·.progress.ratio) = some 100)) := by
  obtain ⟨reports, hreports, hlength, hall⟩ := exists_run s formulas h
  obtain ⟨first, hfirst, hstart, hpaths, htasks, hhandles⟩ := exists_start? hreports
  have hmoves : first.stepsLeft formulas = paths.length * (formulas.length + 4) := by
    rw [stepsLeft, hpaths, htasks, hhandles]
    rfl
  refine ⟨first, reports, hfirst, hreports, fun moves c hrun => ?_⟩
  have hfollows := hstart.run_moves hrun
  have hbound := stepsLeft_run hrun
  refine ⟨by omega, ?_, ?_, fun hdone => ?_⟩
  · by_cases hdone : c.Done
    · exact .inl hdone
    · exact .inr (hfollows.exists_step hdone)
  · obtain ⟨later, hlater, -⟩ := hfollows.run_eq
    exact ⟨later, hlater⟩
  · rw [hfollows.reports_eq hdone]
    exact ⟨hlength, hall, pairwise_ratio_run h hreports, ratio_getLast?_run h hreports⟩

end Steps

end Crew

/-- A document with one line of runes, and one with two of them and a wrong list of skips. -/
def sampleDisk : Disk :=
  ⟨[], [(["A"], .file "ᚠ".toUTF8), (["B"], .file "skips x\nᚠ\nᚢ".toUTF8)]⟩

/-- Between the two there is a document that does not exist. -/
def samplePaths : List String := ["/B", "/C", "/A"]

/-- The tasks are finished from the last one to the first. -/
def sampleMoves : List Move :=
  [.assign, .assign, .assign, .work 2, .work 2, .work 2, .work 1, .work 0, .collect, .collect,
    .collect]

theorem reports_of_moves_backwards :
    lineTotal sampleDisk samplePaths < 2 ^ 64 ∧
      ∃ first c, Crew.start? sampleDisk samplePaths = some first ∧
        first.run? sampleDisk Cipher.sampleSolver [.ofText "p"] sampleMoves = some c ∧ c.Done ∧
        c.reports.map (·.path) = samplePaths ∧ c.reports.map (·.progress.done) = [2, 2, 3] ∧
        c.reports.getLast?.map (·.progress.ratio) = some 100 := by
  have hlines : lineTotal sampleDisk samplePaths < 2 ^ 64 := by decide +kernel
  obtain ⟨first, reports, hfirst, -, hmoves⟩ :=
    Crew.reports_of_moves Cipher.sampleSolver [.ofText "p"] hlines
  obtain ⟨_, c, hstart, hrun, hdone, hpaths, hprogress⟩ :
      ∃ first c, Crew.start? sampleDisk samplePaths = some first ∧
        first.run? sampleDisk Cipher.sampleSolver [.ofText "p"] sampleMoves = some c ∧ c.Done ∧
        c.reports.map (·.path) = samplePaths ∧ c.reports.map (·.progress.done) = [2, 2, 3] :=
    ⟨_, _, rfl, rfl, ⟨rfl, .inl rfl⟩, rfl, rfl⟩
  obtain rfl := Option.some.inj (hfirst.symm.trans hstart)
  obtain ⟨-, -, -, hend⟩ := hmoves _ _ hrun
  obtain ⟨-, -, -, hlast⟩ := hend hdone
  exact ⟨hlines, _, c, hfirst, hrun, hdone, hpaths, hprogress, hlast (List.cons_ne_nil _ _)⟩

end RuneSolver.Job
