import Uplift.Codemod.Runner
import Uplift.Proofs.Codemod.Discovery

/-!
# Runs of codemods

A run of codemods is a list of executions, each on the files that those before it left (`Runs`).
Every codemod is executed, whether those before it failed or not, and the summary of the run is that
of its executions one after another (`exists_runs`).  So it names every codemod in turn
(`ran_summaryOf`), and its errors are, in turn, those that a codemod reported or the one that says
how it failed (`errors_summaryOf`).

What is discovered for a package names no codemod twice (`nodup_relative_discover`): each file is
listed once, and a text leads to one file.
-/

set_option autoImplicit false

namespace Uplift.Codemod

/-! ## Summaries one after another -/

namespace Summary

/-- Summaries one after another. -/
def concat (summaries : List Summary) : Summary :=
  summaries.foldr (· ++ ·) .empty

@[simp] theorem ran_append (first second : Summary) :
    (first ++ second).ran = first.ran ++ second.ran := rfl

@[simp] theorem errors_append (first second : Summary) :
    (first ++ second).errors = first.errors ++ second.errors := rfl

theorem concat_cons (summary : Summary) (rest : List Summary) :
    concat (summary :: rest) = summary ++ concat rest := rfl

theorem ran_concat (summaries : List Summary) :
    (concat summaries).ran = summaries.flatMap Summary.ran := by
  induction summaries with
  | nil => rfl
  | cons summary rest ih => rw [concat_cons, ran_append, ih, List.flatMap_cons]

theorem errors_concat (summaries : List Summary) :
    (concat summaries).errors = summaries.flatMap Summary.errors := by
  induction summaries with
  | nil => rfl
  | cons summary rest ih => rw [concat_cons, errors_append, ih, List.flatMap_cons]

end Summary

/-! ## Executions -/

/-- A codemod that ran, with how it ended. -/
structure Execution where
  reference : Reference
  result : Except Failure Outcome

namespace Execution

/-- The summary of one execution. -/
def summary (execution : Execution) : Summary :=
  execution.reference.summarize execution.result

/-- The errors of one execution: those it reported, or the one that says how it failed. -/
def errors (execution : Execution) : List String :=
  match execution.result with
  | .ok outcome => outcome.errors
  | .error failure => [s!"{execution.reference.relative}: {failure.message}"]

theorem ran_summary (execution : Execution) :
    execution.summary.ran = [execution.reference.relative] := by
  obtain ⟨reference, outcome | failure⟩ := execution <;> rfl

theorem errors_summary (execution : Execution) : execution.summary.errors = execution.errors := by
  obtain ⟨reference, outcome | failure⟩ := execution <;> rfl

end Execution

/-- Codemods are executed one after another, each on the files that those before it left. -/
inductive Runs (setting : Setting) (options : Options) :
    FileTree → List Execution → FileTree → Prop where
  | nil {tree : FileTree} : Runs setting options tree [] tree
  | cons {tree between later : FileTree} {execution : Execution} {rest : List Execution}
      (ran : run setting tree execution.reference.path options = (execution.result, between))
      (next : Runs setting options between rest later) :
      Runs setting options tree (execution :: rest) later

/-- The summary of a run. -/
def summaryOf (executions : List Execution) : Summary :=
  .concat (executions.map Execution.summary)

/-- A run names every codemod that was executed, in turn. -/
theorem ran_summaryOf (executions : List Execution) :
    (summaryOf executions).ran =
      executions.map fun execution => execution.reference.relative := by
  rw [summaryOf, Summary.ran_concat, List.flatMap_map]
  simp only [Execution.ran_summary, List.map_eq_flatMap]

/-- The errors of a run are those of its executions, in turn. -/
theorem errors_summaryOf (executions : List Execution) :
    (summaryOf executions).errors = executions.flatMap Execution.errors := by
  rw [summaryOf, Summary.errors_concat, List.flatMap_map]
  simp only [Execution.errors_summary]

/-- **Running codemods executes each of them in turn**, and the summary is that of all. -/
theorem exists_runs (setting : Setting) (options : Options) (tree : FileTree)
    (references : List Reference) :
    ∃ executions, executions.map Execution.reference = references ∧
      Runs setting options tree executions (runAll setting options tree references).2 ∧
      (runAll setting options tree references).1 = summaryOf executions := by
  induction references generalizing tree with
  | nil => exact ⟨[], rfl, .nil, rfl⟩
  | cons reference rest ih =>
      cases ran : run setting tree reference.path options with
      | mk result between =>
          obtain ⟨executions, listed, runs, summary⟩ := ih between
          refine ⟨⟨reference, result⟩ :: executions, ?_, ?_, ?_⟩
          · rw [List.map_cons, listed]
          · rw [runAll, ran]
            exact .cons ran runs
          · rw [runAll, ran]
            change reference.summarize result ++ (runAll setting options between rest).1 = _
            rw [summary]
            rfl

/-! ## What is executed -/

/-- **No codemod is named twice** among those that are discovered. -/
theorem nodup_relative_discover (tree : FileTree) (library root : Path)
    (package low high : String) :
    ((discover tree library root package low high).map Reference.relative).Nodup := by
  refine List.pairwise_map.2 ((pairwise_firstReferences [] _).imp_of_mem ?_)
  intro early late earlyMember lateMember different same
  obtain ⟨text, _, resolved⟩ := List.mem_filterMap.1 (mem_firstReferences earlyMember).1
  obtain ⟨text', _, resolved'⟩ := List.mem_filterMap.1 (mem_firstReferences lateMember).1
  obtain ⟨rfl, within, _⟩ := resolve?_eq_some_iff.1 resolved
  obtain ⟨rfl, within', _⟩ := resolve?_eq_some_iff.1 resolved'
  rw [same, within'] at within
  rw [Option.some.inj within, Path.same_iff.2 rfl] at different
  cases different

end Uplift.Codemod
