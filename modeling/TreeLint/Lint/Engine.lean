import TreeLint.Lint.Roster
import TreeLint.Rule.Registry

/-!
# Linting and formatting

An engine has a registry of rules, the orders it has worked out, and counts
of the instances it has made. Linting visits a file once and corrects
nothing. Formatting visits a file until a visit corrects nothing any more,
three times at most.

Work on a file is a session: the engine and the tree, with the questions
asked and the notes written so far. Every operation takes a session to a
session. It answers nothing if the fuel given to each walk runs out.

Specification, §14: the session interface, over the ordering of rules
(§4.1), the rules of one file (§4.2) and the walk (§4.3).
-/

namespace TreeLint

/-- Why a file could not be processed. Rules that break down are no reason;
they are reported as failures. Specification, §7. -/
inductive EngineError where
  | order (error : OrderError)
  | creation (error : CreationError)
  | workerLost (file : String)
deriving DecidableEq, Repr

def EngineError.message : EngineError → String
  | .order e => e.message
  | .creation e => s!"failed to create rule '{e.rule}': {e.reason}"
  | .workerLost file => s!"worker stopped before finishing '{file}'"

/-- The rules known, the orders worked out, and the instances made so far. -/
structure Engine (σ : Type) where
  registry : Registry σ
  cache : OrderCache := {}
  made : MadeCounts := []

namespace Engine

/-- The rules that run under some settings, in the order they run.
Specification, §4.1 and §14. -/
def order {σ : Type} (e : Engine σ) (s : Settings) (recreate : Bool) :
    Engine σ × Except OrderError (List (Provider σ)) :=
  let (cache, stamped) :=
    e.cache.resolve e.registry.id e.registry.infos
      (e.registry.disabled s) recreate
  ({ e with cache },
    stamped.result.map fun infos => infos.filterMap fun i =>
      e.registry.find? i.id)

end Engine

/-- Work on a file. -/
structure Session (σ : Type) where
  engine : Engine σ
  tree : Tree
  /-- The questions the policy answered, in order. -/
  asked : List Asked := []
  notes : List Note := []
  /-- Whether getting rid of the rule instances made so far went well. -/
  survived : Bool := true

/-- What formatting a file found and did. -/
structure Formatted where
  /-- The corrected violations of every visit, then those left by the last
  one. -/
  violations : List Violation
  failures : List Failure
  /-- The new text, none if nothing was corrected. -/
  text : Option String
  passes : Nat
deriving DecidableEq, Repr

/-- What the visits of a file have found so far. -/
structure Tally where
  corrected : List Violation := []
  remaining : List Violation := []
  failures : List Failure := []
  passes : Nat := 0
deriving DecidableEq, Repr

namespace Tally

/-- Failures with those added that are new. -/
def addFailures (known new : List Failure) : List Failure :=
  new.foldl (fun fs f => if fs.contains f then fs else fs ++ [f]) known

/-- Take a visit into account. -/
def add (t : Tally) (o : Outcome) : Tally :=
  { corrected := t.corrected ++ o.violations.filter (·.corrected)
    remaining := o.violations.filter fun v => !v.corrected
    failures := addFailures t.failures o.failures
    passes := t.passes + 1 }

/-- What all visits found, with the tree they left. -/
def formatted (t : Tally) (tree : Tree) : Formatted :=
  { violations := t.corrected ++ t.remaining
    failures := t.failures
    text := if t.corrected.isEmpty then none else some tree.toText
    passes := t.passes }

end Tally

namespace Session

/-- Find the rules that run, in order. -/
def order {σ : Type} (s : Settings) (recreate : Bool) (w : Session σ) :
    Session σ × Except EngineError (List (Provider σ)) :=
  let (engine, result) := w.engine.order s recreate
  ({ w with engine }, result.mapError .order)

/-- Make and bind the rules of some providers. -/
def assemble {σ : Type} (s : Settings) (providers : List (Provider σ))
    (w : Session σ) :
    Session σ × Except EngineError (Roster σ) :=
  let a := Assembly.build s providers {} w.engine.made [] false
  ({ w with
      engine := { w.engine with made := a.made }
      notes := w.notes ++ a.notes
      survived := w.survived && !a.fragile },
    a.roster.mapError .creation)

/-- Visit the file with the rules of a roster. -/
def visit {σ : Type} (fuel : Nat) (policy : Policy) (roster : Roster σ)
    (w : Session σ) :
    Option (Session σ × Outcome) :=
  (roster.visit fuel policy w.asked w.tree).map fun v =>
    ({ w with tree := v.tree, asked := v.asked, notes := w.notes ++ v.notes },
      v.outcome)

/-- Make and bind the rules of some providers and visit the file with them. -/
def pass {σ : Type} (fuel : Nat) (policy : Policy) (s : Settings)
    (providers : List (Provider σ)) (w : Session σ) :
    Option (Session σ × Except EngineError Outcome) :=
  match w.assemble s providers with
  | (w, .error e) => some (w, .error e)
  | (w, .ok roster) => (w.visit fuel policy roster).map fun p => (p.1, .ok p.2)

/-- Report what the rules object to and correct nothing. Specification, §14.
-/
def lint {σ : Type} (fuel : Nat) (s : Settings) (w : Session σ) :
    Option (Session σ × Except EngineError Outcome) :=
  match w.order s false with
  | (w, .error e) => some (w, .error e)
  | (w, .ok providers) => w.pass fuel Policy.none s providers

/-- Visit the file at most `passes` times, until a visit corrects nothing. -/
def passes {σ : Type} (fuel : Nat) (policy : Policy) (s : Settings)
    (providers : List (Provider σ)) :
    Nat → Tally → Session σ → Option (Session σ × Except EngineError Tally)
  | 0, tally, w => some (w, .ok tally)
  | left + 1, tally, w =>
    match w.pass fuel policy s providers with
    | none => none
    | some (w, .error e) => some (w, .error e)
    | some (w, .ok outcome) =>
      if outcome.violations.any (·.corrected) then
        passes fuel policy s providers left (tally.add outcome) w
      else some (w, .ok (tally.add outcome))

/-- How many times a file is visited at most. Specification, §14. -/
def maxPasses : Nat := 3

/-- Correct what a policy allows. Specification, §14. -/
def format {σ : Type} (fuel : Nat) (policy : Policy) (s : Settings)
    (w : Session σ) :
    Option (Session σ × Except EngineError Formatted) :=
  match w.order s false with
  | (w, .error e) => some (w, .error e)
  | (w, .ok providers) =>
    (w.passes fuel policy s providers maxPasses {}).map fun p =>
      (p.1, p.2.map fun tally => tally.formatted p.1.tree)

/-- A single visit: who took part, and what it found. -/
structure Visitation where
  rules : List RuleId
  description : String
  outcome : Outcome
deriving DecidableEq, Repr

/-- Visit the file once under a policy. -/
def visitOnce {σ : Type} (fuel : Nat) (policy : Policy) (s : Settings)
    (recreate : Bool) (w : Session σ) :
    Option (Session σ × Except EngineError Visitation) :=
  match w.order s recreate with
  | (w, .error e) => some (w, .error e)
  | (w, .ok providers) =>
    match w.assemble s providers with
    | (w, .error e) => some (w, .error e)
    | (w, .ok roster) =>
      (w.visit fuel policy roster).map fun p =>
        (p.1, .ok { rules := roster.ids, description := roster.describe,
                    outcome := p.2 })

end Session

end TreeLint
