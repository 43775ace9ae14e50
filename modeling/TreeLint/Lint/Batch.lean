import TreeLint.Lint.Engine

/-!
# Many files

Files are linted by workers that report their results in no particular
order. The results are put back in the order of the files by the index each
of them carries. A worker that dies reports nothing, and the files without a
result say so.

Specification, §5 and §14: many files in parallel on a pool of workers,
results in the order of the input.
-/

namespace TreeLint

/-- A file to lint. -/
structure SourceFile where
  name : String
  tree : Tree
  settings : Settings

/-- The result for one file. -/
structure FileResult where
  name : String
  outcome : Except EngineError Outcome

/-- A result as a worker reports it: the index of the file and the outcome. -/
abbrev Arrival := Nat × Except EngineError Outcome

namespace Batch

/-- The result for a file, given its index and everything that arrived. The
last report about a file counts. -/
def resultOf (arrivals : List Arrival) (index : Nat)
    (name : String) : FileResult :=
  match arrivals.reverse.find? fun a => a.1 == index with
  | some (_, outcome) => ⟨name, outcome⟩
  | none => ⟨name, .error (.workerLost name)⟩

/-- Results in the order of the files. Specification, §14. -/
def collect (names : List String) (arrivals : List Arrival) : List FileResult :=
  names.mapIdx (resultOf arrivals)

/-- Lint one file with an engine: the engine to go on with, the notes, and
what is reported. -/
def work {σ : Type} (fuel : Nat) (file : SourceFile) (e : Engine σ) :
    Option (Engine σ × List Note × Option (Except EngineError Outcome)) :=
  (Session.lint fuel file.settings
      { engine := e, tree := file.tree }).map fun p =>
    (p.1.engine, p.1.notes, if p.1.survived then some p.2 else none)

/-- Lint files in turn, the first of them with index `index`: the engine to
go on with, the notes, and what arrived. -/
def run {σ : Type} (fuel : Nat) : Nat → List SourceFile → Engine σ →
    Option (Engine σ × List Note × List Arrival)
  | _, [], e => some (e, [], [])
  | index, file :: files, e =>
    match work fuel file e with
    | none => none
    | some (e, notes, report) =>
      match run fuel (index + 1) files e with
      | none => none
      | some (e, moreNotes, arrivals) =>
        some (e, notes ++ moreNotes,
          (report.map fun o => (index, o)).toList ++ arrivals)

/-- Lint many files. Specification, §14. -/
def lint {σ : Type} (fuel : Nat) (files : List SourceFile) (e : Engine σ) :
    Option (Engine σ × List Note × List FileResult) :=
  (run fuel 0 files e).map fun p =>
    (p.1, p.2.1, collect (files.map SourceFile.name) p.2.2)

end Batch

end TreeLint
