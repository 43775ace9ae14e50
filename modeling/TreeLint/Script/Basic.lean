import TreeLint.Json.Printer
import TreeLint.Rule.Provider
import TreeLint.Script.Edit

/-!
# Scripted rules

A rule whose behaviour is data: when it is called, every hook of the script
that fits the call runs its actions.

Scripts stand for the rules that tests and plug-ins bring along
(specification, §15).
-/

namespace TreeLint.Script

/-- The calls a hook is for. -/
inductive Moment where
  | before
  | after
  | last
deriving DecidableEq, Repr

/-- Where a violation is reported: at an offset, or where a node starts. -/
inductive Spot where
  | offset (n : Nat)
  | node (path : String)
deriving DecidableEq, Repr

/-- What a hook does. -/
inductive Action where
  /-- Report a violation and, if allowed, edit the tree directly. -/
  | emit (spot : Spot) (message : String) (fixable : Bool) (edits : List Edit)
  /-- Report a violation with a correction. -/
  | fix (spot : Spot) (message : String) (edits : List Edit)
  | edit (edits : List Edit)
  | log (text : String)
  | logText
  | logRule
  | crash (reason : String)
deriving DecidableEq, Repr

/-- Actions for the calls at some nodes. -/
structure Trigger where
  moment : Moment
  kind : Option Kind := none
  text : Option String := none
  /-- How often it fires at most. -/
  limit : Option Nat := none
  actions : List Action
deriving DecidableEq, Repr

/-- What a rule does when it is bound. -/
inductive Opening where
  /-- Note what the rule sees of the settings. -/
  | settings
  | crash (reason : String)
deriving DecidableEq, Repr

/-- A scripted rule. -/
structure Rule where
  opening : List Opening := []
  triggers : List Trigger := []
  /-- The number of the instance that is refused. -/
  refusedAt : Option Nat := none
  /-- The text that making an instance crashes with. -/
  creationCrash : Option String := none
  fragile : Bool := false
deriving DecidableEq, Repr

/-- The text of a crash without one. -/
def silentCrash : String := "rule panicked"

/-! ## Actions -/

def Spot.locate (self : Option NodeId) (m : Memory) (t : Tree) :
    Spot → Except String Nat
  | .offset n => .ok n
  | .node path =>
    (Reference.resolve { self, knows := t.contains } m t (.path path)).map
      t.startOffset

/-- Note the answer to a report. -/
def noteDecision (d : Decision) (next : Hook Memory) : Hook Memory :=
  .note "decision" (if d = .allow then "allow" else "no") next

/-- The program of an action. -/
def Action.hook (rule : RuleId) (self : Option NodeId) (m : Memory) :
    Action → Hook Memory
  | .emit spot message fixable edits =>
    .inspect fun t =>
      match spot.locate self m t with
      | .error reason => .crash reason
      | .ok offset =>
        .emit offset message fixable fun d =>
          noteDecision d
            (if d = .allow then Edit.hook self edits m else .finish m)
  | .fix spot message edits =>
    .inspect fun t =>
      match spot.locate self m t with
      | .error reason => .crash reason
      | .ok offset =>
        .emitAndFix offset message (Edit.fixes self edits m) fun d memory =>
          noteDecision d (.finish (memory.getD m))
  | .edit edits => Edit.hook self edits m
  | .log text => .note "log" text (.finish m)
  | .logText =>
    .inspect fun t => .note "text" ("<" ++ t.toText ++ ">") (.finish m)
  | .logRule => .note "rule" (RuleId.name rule) (.finish m)
  | .crash reason => .crash reason

/-! ## Triggers -/

/-- Whether a trigger is for a call. A trigger for certain nodes is never
for the call after the last one. -/
def Trigger.fits (g : Trigger) (moment : Moment) (self : Option NodeId)
    (t : Tree) : Bool :=
  g.moment == moment &&
    (g.kind.all fun k => self.any fun n => t.hasKind n k) &&
    (g.text.all fun s => self.any fun n => t.tokenText? n == some s)

def Memory.firedAt (m : Memory) (index : Nat) : Nat := m.fired.getD index 0

/-- Count a trigger. -/
def Memory.fire (m : Memory) (index : Nat) : Memory :=
  let padded := m.fired ++ List.replicate (index + 1 - m.fired.length) 0
  { m with fired := padded.modify index (· + 1) }

/-- Try triggers in turn, the first of them with index `index`, as long as
the visited node is attached. -/
def runTriggers (rule : RuleId) (moment : Moment) (self : Option NodeId) :
    Nat → List Trigger → Memory → Hook Memory
  | _, [], m => .finish m
  | index, g :: gs, m =>
    .inspect fun t =>
      if !self.all t.isAttached then .finish m
      else if g.fits moment self t && g.limit.all (fun limit =>
          decide (m.firedAt index < limit)) then
        (Hook.each (fun (a : Action) m => a.hook rule self m) g.actions
          (m.fire index)).andThen
          (runTriggers rule moment self (index + 1) gs)
      else runTriggers rule moment self (index + 1) gs m

/-! ## The rule -/

/-- What a rule sees of the settings, on one line. -/
def describeSettings (view : SettingsView) : String :=
  let indentation := view.indentation
  let limit := match view.maxLineLength? with
    | some n => toString n
    | none => "-"
  let options := match view.options with
    | some v => v.write
    | none => "-"
  s!"{view.codeStyle.name} indent={indentation.style.name}:{indentation.size} max={limit} options={options}"

/-- Carry out the opening: what is noted, and the text of a crash if there
is one. -/
def runOpening (view : SettingsView) :
    List Opening → List Remark × Option String
  | [] => ([], none)
  | .settings :: rest =>
    let (remarks, crash) := runOpening view rest
    (⟨"config", describeSettings view⟩ :: remarks, crash)
  | .crash reason :: _ => ([], some reason)

/-- The hooks of a scripted rule. -/
def Rule.visitor (r : Rule) (id : RuleId) : Visitor Memory :=
  { memory := {}
    before := fun n => runTriggers id .before (some n) 0 r.triggers
    after := fun n => runTriggers id .after (some n) 0 r.triggers
    last := runTriggers id .last none 0 r.triggers }

def Rule.bind (r : Rule) (id : RuleId) (view : SettingsView) : Binding Memory :=
  match runOpening view r.opening with
  | (remarks, some reason) => { remarks, visitor := .error reason }
  | (remarks, none) => { remarks, visitor := .ok (r.visitor id) }

def Rule.create (r : Rule) (id : RuleId) (number : Nat) : Creation Memory :=
  if r.refusedAt = some number then .refused s!"creation {number} failed"
  else match r.creationCrash with
    | some reason => .crashed reason
    | none =>
      .made { remarks := [{ event := "created" }], bind := r.bind id,
              fragile := r.fragile }

def Rule.provider (r : Rule) (info : RuleInfo) : Provider Memory :=
  { info with create := r.create info.id }

end TreeLint.Script
