import TreeLint.Lint.Diagnostic
import TreeLint.Lint.LineMemo
import TreeLint.Lint.Policy
import TreeLint.Tree.Op

/-!
# Hooks as programs

What a rule does when it is called is a program: a tree of requests, each
followed by what to do with the answer. Requests are to look at the tree, to
change it, to report a violation, to report one together with a correction,
and to write a note. A rule has a memory of its own, of any type `σ`, which
a program ends with.

`Hook.run` carries a program out on a scene. Everything a rule can do to a
file goes through it, so what holds for it holds for every rule.

Specification, §4.3: reporting, alone or with a correction that applies
entirely or not at all.
-/

namespace TreeLint

/-- The answer to a report: whether the rule has to correct the violation.
Specification, §3. -/
inductive Decision where
  | allow
  | deny
deriving DecidableEq, Repr

/-- A correction: looks at the tree and changes it, and ends with success,
an edit that failed, or a crash. -/
inductive Fix (σ : Type) where
  | finish (memory : σ) (failure : Option EditError)
  | crash (reason : String)
  | inspect (next : Tree → Fix σ)
  | perform (op : Op) (next : Reply → Fix σ)

/-- What a rule does in one call. -/
inductive Hook (σ : Type) where
  | finish (memory : σ)
  | crash (reason : String)
  | inspect (next : Tree → Hook σ)
  | perform (op : Op) (next : Reply → Hook σ)
  /-- Report a violation at an offset. If the answer is to allow, the rule
  has to correct it. -/
  | emit (offset : Nat) (message : String) (fixable : Bool)
      (next : Decision → Hook σ)
  /-- Report a violation and correct it if that is allowed. The rule goes on
  with the memory that the correction ended with, if it was tried. -/
  | emitAndFix (offset : Nat) (message : String) (fix : Fix σ)
      (next : Decision → Option σ → Hook σ)
  | note (event detail : String) (next : Hook σ)

namespace Fix

/-- Carry out operations until one fails. -/
def ofOps {σ : Type} (memory : σ) : List Op → Fix σ
  | [] => .finish memory none
  | op :: ops =>
    .perform op fun
      | .failed error => .finish memory (some error)
      | _ => ofOps memory ops

/-- Go on after success. -/
def andThen {σ : Type} (next : σ → Fix σ) : Fix σ → Fix σ
  | .finish memory none => next memory
  | .finish memory (some error) => .finish memory (some error)
  | .crash reason => .crash reason
  | .inspect k => .inspect fun t => (k t).andThen next
  | .perform op k => .perform op fun r => (k r).andThen next

end Fix

namespace Hook

/-- Go on with the memory a program ends with. -/
def andThen {σ : Type} (next : σ → Hook σ) : Hook σ → Hook σ
  | .finish memory => next memory
  | .crash reason => .crash reason
  | .inspect k => .inspect fun t => (k t).andThen next
  | .perform op k => .perform op fun r => (k r).andThen next
  | .emit offset message fixable k =>
    .emit offset message fixable fun d => (k d).andThen next
  | .emitAndFix offset message fix k =>
    .emitAndFix offset message fix fun d m => (k d m).andThen next
  | .note event detail k => .note event detail (k.andThen next)

/-- Do something for every item in turn. -/
def each {σ α : Type} (step : α → σ → Hook σ) : List α → σ → Hook σ
  | [], memory => .finish memory
  | a :: as, memory => (step a memory).andThen (each step as)

/-- Report a violation and correct it by some operations. -/
def correct {σ : Type} (offset : Nat) (message : String) (ops : List Op)
    (memory : σ) : Hook σ :=
  .emitAndFix offset message (Fix.ofOps memory ops) fun _ _ => .finish memory

end Hook

/-! ## Carrying out corrections -/

/-- How a correction ended. -/
inductive FixEnd (σ : Type) where
  | finished (memory : σ) (failure : Option EditError)
  | crashed (reason : String)

/-- Carry out a correction on a tree. -/
def Fix.run {σ : Type} : Fix σ → Tree → Tree × FixEnd σ
  | .finish memory failure, t => (t, .finished memory failure)
  | .crash reason, t => (t, .crashed reason)
  | .inspect k, t => (k t).run t
  | .perform op k, t => (k (op.apply t).2).run (op.apply t).1

/-! ## Carrying out hooks -/

/-- What a call works on: the tree, and all that was reported, asked and
noted since the visit began. -/
structure Scene where
  tree : Tree
  /-- In the order they were reported. -/
  violations : List Violation := []
  failures : List Failure := []
  lines : LineMemo := {}
  asked : List Asked := []
  notes : List Note := []

/-- How a call ended. -/
inductive HookEnd (σ : Type) where
  | finished (memory : σ)
  | crashed (reason : String)

namespace Scene

/-- Enter a violation whose correction was decided upon. -/
def enter (s : Scene) (rule : RuleId) (offset : Nat) (message : String)
    (fixable allowed : Bool) : Scene :=
  let (lines, position) := s.lines.position s.tree offset
  { s with
    lines
    violations := s.violations ++
      [{ offset, position, message, rule, fixable,
         corrected := fixable && allowed }] }

/-- Report a violation: ask the policy, once, and enter the violation. The
answer is to allow if the policy does and the violation can be corrected.
Specification, §4.3. -/
def report (s : Scene) (policy : Policy) (rule : RuleId) (offset : Nat)
    (message : String) (fixable : Bool) : Scene × Except String Decision :=
  match policy s.asked rule offset with
  | .crash reason => (s, .error reason)
  | .answer allowed =>
    let s : Scene := { s with asked := s.asked ++ [⟨rule, offset, allowed⟩] }
    (s.enter rule offset message fixable allowed,
      .ok (if fixable && allowed then .allow else .deny))

/-- Take back a correction that failed: the tree is as it was at the
checkpoint, the violation does not count as corrected, and the failure is
reported. Specification, §4.3. -/
def abandonFix (s : Scene) (checkpoint : Checkpoint) (index : Nat)
    (rule : RuleId) (offset : Nat) (error : EditError) : Scene :=
  { s with
    tree := s.tree.rollback checkpoint
    violations := Violation.uncorrectAt index s.violations
    failures := s.failures ++ [⟨rule, offset, .autocorrect, error.message⟩] }

end Scene

namespace Hook

/-- Carry out a program. A correction that is allowed has a transaction of
its own, which is committed if the correction succeeds and rolled back if it
fails; if it crashes the transaction stays open, and the program crashes
with it. -/
def run {σ : Type} (policy : Policy) (rule : RuleId) :
    Hook σ → Scene → Scene × HookEnd σ
  | .finish memory, s => (s, .finished memory)
  | .crash reason, s => (s, .crashed reason)
  | .inspect k, s => (k s.tree).run policy rule s
  | .perform op k, s =>
    (k (op.apply s.tree).2).run policy rule
      { s with tree := (op.apply s.tree).1 }
  | .note event detail k, s =>
    k.run policy rule { s with notes := s.notes ++ [⟨rule, event, detail⟩] }
  | .emit offset message fixable k, s =>
    match s.report policy rule offset message fixable with
    | (s, .error reason) => (s, .crashed reason)
    | (s, .ok decision) => (k decision).run policy rule s
  | .emitAndFix offset message fix k, s =>
    match s.report policy rule offset message true with
    | (s, .error reason) => (s, .crashed reason)
    | (s, .ok .deny) => (k .deny none).run policy rule s
    | (s, .ok .allow) =>
      let checkpoint := s.tree.checkpoint
      match fix.run s.tree.begin with
      | (tree, .crashed reason) => ({ s with tree }, .crashed reason)
      | (tree, .finished memory none) =>
        (k .allow (some memory)).run policy rule
          { s with tree := tree.commit checkpoint }
      | (tree, .finished memory (some error)) =>
        (k .deny (some memory)).run policy rule
          (Scene.abandonFix { s with tree } checkpoint
            (s.violations.length - 1) rule offset error)

end Hook

end TreeLint
