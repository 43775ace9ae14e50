import TreeLint.Rule.Provider
import TreeLint.Tree.Dump

/-!
# Probe rules

Rules for trying out an engine: one that notes every call, one that reports
every node of a kind, one that crashes, and one that cannot be made.

Specification, §15.
-/

namespace TreeLint.Probe

/-! ## Recording -/

/-- Note a call for a node. -/
def noteNode {σ : Type} (event : String) (n : NodeId) (memory : σ) : Hook σ :=
  .inspect fun t => .note event (t.describe n) (.finish memory)

/-- A rule that notes every call. -/
def recorder {σ : Type} [Inhabited σ] (info : RuleInfo) : Provider σ :=
  { info with
    create := fun _ => .made
      { remarks := [{ event := "created" }]
        bind := fun _ =>
          { remarks := [{ event := "before_first_node" }]
            visitor := .ok
              { memory := default
                before := noteNode "before"
                after := noteNode "after"
                last := fun m => .note "after_last_node" "" (.finish m) } } } }

/-! ## Reporting -/

/-- What a reporter does to the nodes it reports. -/
inductive Remedy where
  | detach
  /-- Detach a node that is detached already, which fails. -/
  | detachTwice
  /-- Empty the text of a token. -/
  | blank
  | spaceAfter
  /-- Detach the node and begin the file with a space. -/
  | leadingSpace
deriving DecidableEq, Repr

namespace Remedy

def ofName? : String → Option Remedy
  | "detach" => some .detach
  | "detach_twice" => some .detachTwice
  | "blank" => some .blank
  | "space_after" => some .spaceAfter
  | "leading_space" => some .leadingSpace
  | _ => none

/-- Put a new space in front of everything. -/
def beginWithSpace {σ : Type} (memory : σ) : Fix σ :=
  .perform (.newToken .whitespace " ") fun
    | .created space => .ofOps memory [.insertChild Tree.root 0 space]
    | _ => .finish memory none

def fix {σ : Type} (r : Remedy) (n : NodeId) (memory : σ) : Fix σ :=
  match r with
  | .detach => .ofOps memory [.detach n]
  | .detachTwice => .ofOps memory [.detach n, .detach n]
  | .blank => .ofOps memory [.replaceText n ""]
  | .spaceAfter => .ofOps memory [.spaceAfter n " "]
  | .leadingSpace => (Fix.ofOps memory [.detach n]).andThen beginWithSpace

end Remedy

/-- Report a node if it has a kind. -/
def report {σ : Type} (kind : Kind) (message : String) (remedy : Option Remedy)
    (n : NodeId) (memory : σ) : Hook σ :=
  .inspect fun t =>
    if !t.hasKind n kind then .finish memory
    else match remedy with
      | some r =>
        .emitAndFix (t.startOffset n) message (r.fix n memory) fun _ _ =>
          .finish memory
      | none => .emit (t.startOffset n) message false fun _ => .finish memory

/-- A rule that reports every node of a kind. -/
def reporter {σ : Type} [Inhabited σ] (info : RuleInfo) (kind : Kind)
    (message : String) (remedy : Option Remedy) : Provider σ :=
  .ofVisitor info fun _ =>
    { memory := default, before := report kind message remedy }

/-! ## Breaking down -/

/-- Crash at a node of a kind, after emptying its first token if `editFirst`. -/
def crashAt {σ : Type} (kind : Kind) (message : String) (editFirst : Bool)
    (n : NodeId) (memory : σ) : Hook σ :=
  .inspect fun t =>
    if !t.hasKind n kind then .finish memory
    else match (t.firstLeaf? n).filter fun _ => editFirst with
      | some leaf =>
        (Hook.correct (t.startOffset n) "About to fail" [.replaceText leaf ""]
          memory).andThen
          fun _ => .crash message
      | none => .crash message

/-- A rule that crashes: at nodes of a kind, or at the end if there is none. -/
def breaker {σ : Type} [Inhabited σ] (info : RuleInfo) (kind : Option Kind)
    (message : String) (editFirst : Bool) : Provider σ :=
  .ofVisitor info fun _ =>
    match kind with
    | some k => { memory := default, before := crashAt k message editFirst }
    | none => { memory := default, last := fun _ => .crash message }

/-- A rule that cannot be made. -/
def unavailable {σ : Type} (info : RuleInfo) (reason : String) : Provider σ :=
  { info with create := fun _ => .refused reason }

end TreeLint.Probe
