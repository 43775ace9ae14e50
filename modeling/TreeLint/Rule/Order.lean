import TreeLint.Rule.Info

/-!
# The order of rules

A rule waits for the running rules it wishes to run after, and a late rule
waits for every running rule that is not late. Rules are placed one at a
time: of those that wait for nothing any more, the one with the least
identity goes first. If rules are left that all still wait, their wishes
contradict each other, and what is left says how.

Specification, §4.1, and §9 on late rules: lateness is the outer order, and
a rule that is not late but wishes to run after one that is contradicts it.
-/

namespace TreeLint

/-- A rule that could not be placed, and what it was still waiting for. -/
structure Blocked where
  rule : RuleId
  waitsFor : List RuleId
deriving DecidableEq, Repr

def Blocked.render (b : Blocked) : String :=
  b.rule ++ " (waits for " ++ String.intercalate ", " b.waitsFor ++ ")"

/-- Wishes that contradict each other. Specification, §7. -/
structure OrderError where
  blocked : List Blocked
deriving DecidableEq, Repr

def OrderError.message (e : OrderError) : String :=
  "rule ordering constraints contradict each other: " ++
    String.intercalate "; " (e.blocked.map Blocked.render)

/-- A rule on its way into the order, with the rules it still waits for in
increasing order. -/
structure Waiting where
  info : RuleInfo
  waitsFor : List RuleId
deriving DecidableEq, Repr

namespace Waiting

def blocked (w : Waiting) : Blocked := ⟨w.info.id, w.waitsFor⟩

/-- Stop waiting for a rule that was placed. -/
def release (placed : RuleId) (w : Waiting) : Waiting :=
  { w with waitsFor := w.waitsFor.filter (· != placed) }

end Waiting

namespace RuleInfo

/-- The rules that run, in increasing order of their identities. Of equal
identities the last one counts. Specification, §4.1: the enabled rules. -/
def running (rules : List RuleInfo) (disabled : List RuleId) :
    NameMap RuleInfo :=
  NameMap.ofList ((rules.filter fun r => !disabled.contains r.id).map
    fun r => (r.id, r))

/-- The running rules a rule waits for, in increasing order. Specification,
§4.1: the constraints on one rule. -/
def waits (running : NameMap RuleInfo) (r : RuleInfo) : List RuleId :=
  (running.filter fun p =>
    r.targets.contains p.1 || (r.isLate && !p.2.isLate)).map Prod.fst

/-- Every running rule with what it waits for. -/
def waiting (running : NameMap RuleInfo) : List Waiting :=
  running.map fun p => ⟨p.2, p.2.waits running⟩

/-- Place up to `n` of the rules that wait; the rules placed, and those
left. Specification, §4.1: of those that are ready, always the least. -/
def place : Nat → List Waiting → List RuleInfo × List Waiting
  | 0, rest => ([], rest)
  | n + 1, rest =>
    match rest.find? fun w => w.waitsFor.isEmpty with
    | none => ([], rest)
    | some next =>
      let left := (rest.filter fun w => w.info.id != next.info.id).map
        (Waiting.release next.info.id)
      let (placed, stuck) := place n left
      (next.info :: placed, stuck)

/-- The order in which rules run, leaving out the disabled ones.
Specification, §4.1. -/
def sort (rules : List RuleInfo) (disabled : List RuleId) :
    Except OrderError (List RuleInfo) :=
  let rest := waiting (running rules disabled)
  match place rest.length rest with
  | (placed, []) => .ok placed
  | (_, stuck) => .error ⟨stuck.map Waiting.blocked⟩

end RuleInfo

end TreeLint
