import TreeLint.Lint.Hook

/-!
# Where rules come from

A provider makes a fresh instance of its rule for every file. The instance
is then bound to the settings of the file, which gives the hooks that a
visit calls. Making an instance may be refused and may crash, and so may
binding it.

Specification, §3 (providers and rules) and §4.2 (making and binding).
-/

namespace TreeLint

/-- The hooks of a rule bound to one file, and the memory it starts with.
Specification, §3. -/
structure Visitor (σ : Type) where
  memory : σ
  /-- Called for every node before its children are visited. -/
  before : NodeId → σ → Hook σ := fun _ m => .finish m
  /-- Called for every node after its children were visited. -/
  after : NodeId → σ → Hook σ := fun _ m => .finish m
  /-- Called once, after the root was visited. -/
  last : σ → Hook σ := fun m => .finish m

/-- An event to note, and what it was about. -/
structure Remark where
  event : String
  detail : String := ""
deriving DecidableEq, Repr

def Remark.note (rule : RuleId) (r : Remark) : Note := ⟨rule, r.event, r.detail⟩

/-- What binding a rule to the settings of a file gives. -/
structure Binding (σ : Type) where
  remarks : List Remark := []
  /-- The bound rule, or the text the rule crashed with. -/
  visitor : Except String (Visitor σ)

/-- A rule made for one file. -/
structure Instance (σ : Type) where
  remarks : List Remark := []
  bind : SettingsView → Binding σ
  /-- Getting rid of a fragile instance kills whoever does it. -/
  fragile : Bool := false

/-- What asking for an instance gives. -/
inductive Creation (σ : Type) where
  | made (inst : Instance σ)
  | refused (reason : String)
  | crashed (reason : String)

/-- A rule with everything it says about itself. Specification, §3. -/
structure Provider (σ : Type) extends RuleInfo where
  /-- Ask for an instance, given how many times that was done before. -/
  create : Nat → Creation σ

namespace Provider

/-- A rule that can always be made and bound. -/
def ofVisitor {σ : Type} (info : RuleInfo)
    (visitor : SettingsView → Visitor σ) : Provider σ :=
  { info with
    create := fun _ =>
      .made { bind := fun view => { visitor := .ok (visitor view) } } }

/-- A rule that does nothing. -/
def idle {σ : Type} [Inhabited σ] (info : RuleInfo) : Provider σ :=
  ofVisitor info fun _ => { memory := default }

end Provider

end TreeLint
