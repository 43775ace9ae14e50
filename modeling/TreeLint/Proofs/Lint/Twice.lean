import TreeLint.Proofs.Lint.Lines
import TreeLint.Proofs.Lint.Tour
import TreeLint.Proofs.Lint.Untouched
import TreeLint.Proofs.Tree.SameFile

/-!
# Visiting a file twice

A visit that corrects nothing leaves the document as it was, but not the
tree: corrections that failed leave nodes on their own behind, and the
revision is higher. If the rules look at the document only, and their
corrections fail or succeed by the document only (`Hook.Repeatable`), a
second visit takes the same course as the first one, call by call, and
reports the same violations. The two runs are compared with scenes side by
side (`Scene.Twins`): neither tree has to be the other one, both have to
show the document there was at the start.

Specification, §14: formatting is over when a visit corrects nothing.
-/

namespace TreeLint

variable {σ : Type} {rule : RuleId} {policy : Policy}
  {test : RuleId → Nat → Bool} {t : Tree}

/-! ## Programs that never crash -/

namespace Fix

/-- A correction that never crashes, whatever it finds. -/
def Crashless : Fix σ → Prop
  | .finish _ _ => True
  | .crash _ => False
  | .inspect k => ∀ t, (k t).Crashless
  | .perform _ k => ∀ r, (k r).Crashless

theorem crashless_ofOps (memory : σ) (ops : List Op) :
    (Fix.ofOps memory ops).Crashless := by
  induction ops with
  | nil => trivial
  | cons op ops ih =>
    intro r
    cases r with
    | failed error => trivial
    | done | created | opened => exact ih

theorem Runs.not_crashed {fix : Fix σ} {u : Tree} {ops : List Op} {e : FixEnd σ}
    (hr : fix.Runs t ops u e) (hc : fix.Crashless) (reason : String) :
    e ≠ .crashed reason := by
  induction hr with
  | finish => intro h; cases h
  | crash => exact hc.elim
  | inspect _ ih => exact ih (hc _)
  | perform _ ih => exact ih (hc _)

end Fix

namespace Hook

/-- A program that never crashes, whatever it finds and however it is
answered. -/
def Crashless : Hook σ → Prop
  | .finish _ => True
  | .crash _ => False
  | .inspect k => ∀ t, (k t).Crashless
  | .perform _ k => ∀ r, (k r).Crashless
  | .emit _ _ _ k => ∀ d, (k d).Crashless
  | .emitAndFix _ _ fix k => fix.Crashless ∧ ∀ d memory, (k d memory).Crashless
  | .note _ _ k => k.Crashless

variable {h : Hook σ} {next : σ → Hook σ}

/-- One program after another never crashes if neither does. -/
theorem Crashless.andThen (hh : h.Crashless)
    (hnext : ∀ memory, (next memory).Crashless) :
    (h.andThen next).Crashless := by
  induction h with
  | finish memory => exact hnext memory
  | crash => exact hh.elim
  | inspect k ih => exact fun t => ih t (hh t)
  | perform op k ih => exact fun r => ih r (hh r)
  | emit o m f k ih => exact fun d => ih d (hh d)
  | emitAndFix o m fix k ih =>
    exact ⟨hh.1, fun d memory => ih d memory (hh.2 d memory)⟩
  | note e d k ih => exact ih hh

theorem crashless_each {α : Type} {step : α → σ → Hook σ}
    (hstep : ∀ a memory, (step a memory).Crashless) (as : List α) (memory : σ) :
    (each step as memory).Crashless := by
  induction as generalizing memory with
  | nil => trivial
  | cons a as ih => exact (hstep a memory).andThen ih

theorem crashless_correct (offset : Nat) (message : String) (ops : List Op)
    (memory : σ) :
    (correct offset message ops memory).Crashless :=
  ⟨Fix.crashless_ofOps memory ops, fun _ _ => trivial⟩

/-- A policy that looks at the rule and the offset only does not break
down. -/
theorem Runs.finished {s s' : Scene} {ds : List Deed} {e : HookEnd σ}
    (hr : h.Runs (.ofTest test) rule s ds s' e) (hc : h.Crashless) :
    ∃ memory, e = .finished memory := by
  induction hr with
  | finish memory => exact ⟨memory, rfl⟩
  | crash => exact hc.elim
  | inspect _ ih => exact ih (hc _)
  | perform _ ih => exact ih (hc _)
  | note _ ih => exact ih hc
  | emitCrashed hask | askCrashed hask => cases hask
  | emit _ _ ih => exact ih (hc _)
  | denied _ _ ih => exact ih (hc.2 _ _)
  | fixCrashed _ hfix => exact absurd rfl (hfix.not_crashed hc.1 _)
  | fixed _ _ _ ih => exact ih (hc.2 _ _)
  | abandoned _ _ _ ih => exact ih (hc.2 _ _)

end Hook

/-! ## Programs that look at the document only -/

/-- A correction that succeeds on every tree with the document of `t`, or
fails on every one, and ends with one memory. -/
def Fix.Repeatable (t : Tree) (fix : Fix σ) : Prop :=
  ∃ memory succeeds, ∀ v, v.Consistent → t.SameFile v → fix.KeepsToItself v ∧
    ∃ ops u failure, fix.Runs v.begin ops u (.finished memory failure) ∧
      failure.isNone = succeeds

namespace Hook

/-- A program that goes the same way on every tree with the document of `t`,
as long as it corrects nothing. -/
def Repeatable (t : Tree) : Hook σ → Prop
  | .finish _ => True
  | .crash _ => False
  | .inspect k => (∀ v, t.SameFile v → k v = k t) ∧ (k t).Repeatable t
  | .perform _ _ => False
  | .emit _ _ _ k => ∀ d, (k d).Repeatable t
  | .emitAndFix _ _ fix k =>
    fix.Repeatable t ∧ ∀ memory, (k .deny memory).Repeatable t
  | .note _ _ k => k.Repeatable t

variable {h : Hook σ} {next : σ → Hook σ}

/-- One program after another goes the same way every time if both do. -/
theorem Repeatable.andThen (hh : h.Repeatable t)
    (hnext : ∀ memory, (next memory).Repeatable t) :
    (h.andThen next).Repeatable t := by
  induction h with
  | finish memory => exact hnext memory
  | crash => exact hh.elim
  | inspect k ih =>
    exact ⟨fun v hv => congrArg (Hook.andThen next) (hh.1 v hv), ih t hh.2⟩
  | perform => exact hh.elim
  | emit o m f k ih => exact fun d => ih d (hh d)
  | emitAndFix o m fix k ih =>
    exact ⟨hh.1, fun memory => ih .deny memory (hh.2 memory)⟩
  | note e d k ih => exact ih hh

theorem repeatable_each {α : Type} {step : α → σ → Hook σ} {as : List α}
    (hstep : ∀ a ∈ as, ∀ memory, (step a memory).Repeatable t) (memory : σ) :
    (each step as memory).Repeatable t := by
  induction as generalizing memory with
  | nil => trivial
  | cons a as ih =>
    obtain ⟨ha, has⟩ := List.forall_mem_cons.mp hstep
    exact (ha memory).andThen (ih has)

end Hook

/-! ## Scenes side by side -/

namespace Scene

/-- The tree of a scene has the document of `t`, and the lines remembered
are right for it. -/
structure Shows (t : Tree) (s : Scene) : Prop where
  consistent : s.tree.Consistent
  file : t.SameFile s.tree
  lines : s.lines.Knows s.tree

namespace Shows

variable {s : Scene} {offset : Nat} {message : String} {fixable allowed : Bool}

/-- What is entered for a report does not depend on the tree that shows the
document. -/
theorem violation_eq (h : s.Shows t) :
    s.violation rule offset message fixable allowed =
      { offset, position := t.position offset, message, rule, fixable,
        corrected := fixable && allowed } := by
  have hposition : (s.lines.position s.tree offset).2 = t.position offset := by
    rw [h.lines.position_eq, Tree.position, Tree.position, Tree.lineTable,
      Tree.lineTable, h.file.toText]
  rw [Scene.violation, hposition]

theorem answered (h : s.Shows t) :
    (s.answered rule offset message fixable allowed).Shows t where
  consistent := h.consistent
  file := h.file
  lines := h.lines.position offset

theorem begin (h : s.Shows t) : Shows t { s with tree := s.tree.begin } where
  consistent := h.consistent.begin
  file := h.file.congr h.consistent.begin.sound rfl
  lines := h.lines.onward (.of_forest_eq rfl rfl)

theorem commit (h : s.Shows t) (c : Checkpoint) :
    Shows t { s with tree := s.tree.commit c } where
  consistent := h.consistent.close c
  file := h.file.congr (h.consistent.close c).sound rfl
  lines := h.lines.onward (.of_forest_eq rfl rfl)

/-- A correction that failed is taken back; nodes it created stay behind, on
their own. -/
theorem abandoned (h : s.Shows t) {fix : Fix σ} {ops : List Op} {u : Tree}
    {e : FixEnd σ} (hown : fix.KeepsToItself s.tree)
    (hfix : fix.Runs s.tree.begin ops u e) (index : Nat) (error : EditError) :
    (abandonFix { s with tree := u } s.tree.checkpoint index rule offset
      error).Shows t := by
  obtain ⟨fresh, hin, -, -⟩ := (Tree.Within.begin h.consistent).run (by simp)
    (hown _ _ _ hfix)
  rw [← hfix.tree_eq] at hin
  have hforest := (hin.rollback h.consistent).1
  have hcons : (u.rollback s.tree.checkpoint).Consistent :=
    (hin.consistent.unwind _).close _
  have honward : s.tree.Onward (u.rollback s.tree.checkpoint) := by
    have hbegin : s.tree.Onward s.tree.begin := .of_forest_eq rfl rfl
    have hrun := Tree.onward_run h.consistent.begin ops
    rw [← hfix.tree_eq] at hrun
    exact (hbegin.trans hrun).trans (Tree.onward_rollback hin.consistent _)
  refine ⟨hcons, h.file.trans ⟨h.consistent.sound, hcons.sound, ?_⟩,
    h.lines.onward honward⟩
  exact Tree.subtree_of_append hforest h.consistent.sound.linked.root_exists

end Shows

/-- Two scenes with the same violations whose trees have the document of `t`. -/
structure Twins (t : Tree) (a b : Scene) : Prop where
  left : a.Shows t
  right : b.Shows t
  violations : b.violations = a.violations

variable {a b : Scene} {offset : Nat} {message : String}
  {fixable allowed : Bool}

theorem Twins.answered (h : Twins t a b) :
    Twins t (a.answered rule offset message fixable allowed)
      (b.answered rule offset message fixable allowed) where
  left := h.left.answered
  right := h.right.answered
  violations := by
    rw [answered_violations, answered_violations, h.left.violation_eq,
      h.right.violation_eq, h.violations]

end Scene

/-- None of some violations counts as corrected. -/
def Uncorrected (vs : List Violation) : Prop := ∀ v ∈ vs, v.corrected = false

theorem Uncorrected.filter_eq {vs : List Violation} (h : Uncorrected vs) :
    vs.filter (fun v => !v.corrected) = vs :=
  List.filter_eq_self.mpr fun v hv => by simp [h v hv]

theorem Uncorrected.mono {vs ws : List Violation} (h : Uncorrected ws)
    (hp : vs <+: ws) : Uncorrected vs :=
  fun v hv => h v (hp.subset hv)

/-- A correction ends in one way. -/
theorem Fix.Runs.end_unique {fix : Fix σ} {u u' : Tree} {ops ops' : List Op}
    {e e' : FixEnd σ} (hr : fix.Runs t ops u e)
    (hr' : fix.Runs t ops' u' e') : e = e' :=
  congrArg Prod.snd (hr.run_eq.symm.trans hr'.run_eq)

/-- What a program does on one scene it does on a twin, if nothing counts as
corrected in the end. -/
theorem Hook.Runs.twin {h : Hook σ} {a a' b : Scene} {ds : List Deed}
    {e : HookEnd σ} (hr : h.Runs (.ofTest test) rule a ds a' e)
    (hh : h.Repeatable t) (htwins : Scene.Twins t a b)
    (hnone : Uncorrected a'.violations) :
    ∃ ds' b', h.Runs (.ofTest test) rule b ds' b' e ∧ Scene.Twins t a' b' := by
  induction hr generalizing b with
  | finish memory => exact ⟨_, b, .finish memory, htwins⟩
  | crash => exact hh.elim
  | @inspect k a _ _ _ _ ih =>
    have hleft := hh.1 a.tree htwins.left.file
    have hright := hh.1 b.tree htwins.right.file
    obtain ⟨ds', b', hb, htwins'⟩ := ih (hleft ▸ hh.2) htwins hnone
    rw [hleft, ← hright] at hb
    exact ⟨ds', b', .inspect hb, htwins'⟩
  | perform => exact hh.elim
  | @note event detail _ a _ _ _ _ ih =>
    have hnoted : Scene.Twins t
        { a with notes := a.notes ++ [⟨rule, event, detail⟩] }
        { b with notes := b.notes ++ [⟨rule, event, detail⟩] } :=
      ⟨⟨htwins.left.1, htwins.left.2, htwins.left.3⟩,
        ⟨htwins.right.1, htwins.right.2, htwins.right.3⟩,
        htwins.violations⟩
    obtain ⟨ds', b', hb, htwins'⟩ := ih hh hnoted hnone
    exact ⟨ds', b', .note hb, htwins'⟩
  | emitCrashed hask | askCrashed hask => cases hask
  | emit hask _ ih =>
    obtain ⟨ds', b', hb, htwins'⟩ := ih (hh _) htwins.answered hnone
    exact ⟨_, b', .emit hask hb, htwins'⟩
  | denied hask _ ih =>
    obtain ⟨ds', b', hb, htwins'⟩ := ih (hh.2 _) htwins.answered hnone
    exact ⟨_, b', .denied hask hb, htwins'⟩
  | @fixCrashed _ _ _ _ a _ _ _ _ hfix =>
    obtain ⟨memory, succeeds, hall⟩ := hh.1
    obtain ⟨-, ops', u', failure, hrun, -⟩ :=
      hall a.tree htwins.left.consistent htwins.left.file
    cases hfix.end_unique hrun
  | @fixed o m _ _ a a' _ _ _ _ _ _ _ hrest _ =>
    -- the violation it was reported with still counts as corrected
    obtain ⟨emitted, hs', -⟩ := hrest.reported
    have hmem : a.violation rule o m true true ∈ a'.violations := by
      rw [hs']
      exact List.mem_append_left _ (by simp [Scene.answered_violations])
    exact absurd (hnone _ hmem) (by simp [Scene.violation])
  | @abandoned o m fix _ a _ _ u memory error _ _ hask hfix _ ih =>
    obtain ⟨memory', succeeds, hall⟩ := hh.1
    obtain ⟨hown, ops₁, u₁, failure, hrun, hfailure⟩ :=
      hall a.tree htwins.left.consistent htwins.left.file
    cases hfix.end_unique hrun
    -- it fails on the other tree, too, for whatever reason
    obtain ⟨hown', ops', u', failure', hrun', hfailure'⟩ :=
      hall b.tree htwins.right.consistent htwins.right.file
    rw [← hfailure] at hfailure'
    cases failure' with
    | none => cases hfailure'
    | some error' =>
      have hanswered : Scene.Twins t (a.answered rule o m true true)
          (b.answered rule o m true true) :=
        htwins.answered
      have hnext : Scene.Twins t
          (Scene.abandonFix { a.answered rule o m true true with
            tree := u } a.tree.checkpoint a.violations.length
            rule o error)
          (Scene.abandonFix { b.answered rule o m true true with
            tree := u' } b.tree.checkpoint b.violations.length
            rule o error') := by
        refine ⟨hanswered.left.abandoned hown hfix _ _,
          hanswered.right.abandoned hown' hrun' _ _, ?_⟩
        simp only [Scene.abandonFix, hanswered.violations, htwins.violations]
      obtain ⟨ds', b', hb, htwins'⟩ := ih (hh.2 _) hnext hnone
      exact ⟨_, b', .abandoned hask hrun' hb, htwins'⟩

/-! ## Calls -/

/-- The hooks of a bound rule, called for nodes of the document of `t`, look
at that document only. -/
structure Visitor.Repeatable (t : Tree) (v : Visitor σ) : Prop where
  before : ∀ n memory, n ∈ t.document.ids → (v.before n memory).Repeatable t
  after : ∀ n memory, n ∈ t.document.ids → (v.after n memory).Repeatable t
  last : ∀ memory, (v.last memory).Repeatable t

/-- A bound rule that never crashes. -/
structure Visitor.Crashless (v : Visitor σ) : Prop where
  before : ∀ n memory, (v.before n memory).Crashless
  after : ∀ n memory, (v.after n memory).Crashless
  last : ∀ memory, (v.last memory).Crashless

namespace ActiveRule

variable {r : ActiveRule σ} {phase : Phase} {node : Option NodeId}
  {s a b : Scene}

theorem hook_repeatable (hv : r.visitor.Repeatable t) (ht : t.Sound)
    (hn : node.all t.isAttached = true) :
    (r.hook phase node).Repeatable t := by
  unfold hook
  split
  · exact hv.before _ _ (ht.mem_document_iff.mpr hn)
  · exact hv.after _ _ (ht.mem_document_iff.mpr hn)
  · exact hv.last _

theorem hook_crashless (hv : r.visitor.Crashless) :
    (r.hook phase node).Crashless := by
  unfold hook
  split
  · exact hv.before _ _
  · exact hv.after _ _
  · exact hv.last _

/-- A call changes the memory of a rule, not its hooks. -/
theorem visitor_invoke (policy : Policy) (phase : Phase) (node : Option NodeId)
    (r : ActiveRule σ) (s : Scene) :
    ∃ memory, (r.invoke policy phase node s).1.visitor =
      { r.visitor with memory } := by
  unfold invoke
  split
  · exact ⟨_, rfl⟩
  · exact ⟨r.visitor.memory, rfl⟩

/-- A call only adds violations. -/
theorem violations_invoke (policy : Policy) (phase : Phase)
    (node : Option NodeId) (r : ActiveRule σ) (s : Scene) :
    s.violations <+: (r.invoke policy phase node s).2.violations := by
  obtain ⟨ds, after, e, hr⟩ :=
    (r.hook phase node).exists_runs policy r.id { s with tree := s.tree.begin }
  obtain ⟨emitted, hemitted, -⟩ := hr.reported
  cases e with
  | finished memory =>
    rw [invoke_of_finish hr]
    exact ⟨emitted, hemitted.symm⟩
  | crashed reason =>
    rw [invoke_of_crash hr]
    refine ⟨emitted.map Violation.uncorrect, ?_⟩
    simp only [recover, hemitted, Violation.uncorrectFrom_length]

/-- A call on one scene and the same call on a twin. -/
theorem invoke_twin (hh : (r.hook phase node).Repeatable t)
    (hc : (r.hook phase node).Crashless) (htwins : Scene.Twins t a b)
    (hnone : Uncorrected (r.invoke (.ofTest test) phase node a).2.violations) :
    (r.invoke (.ofTest test) phase node b).1 =
      (r.invoke (.ofTest test) phase node a).1 ∧
      Scene.Twins t (r.invoke (.ofTest test) phase node a).2
        (r.invoke (.ofTest test) phase node b).2 := by
  obtain ⟨ds, a', e, hr⟩ := (r.hook phase node).exists_runs (.ofTest test) r.id
    { a with tree := a.tree.begin }
  obtain ⟨memory, rfl⟩ := hr.finished hc
  rw [invoke_of_finish hr] at hnone ⊢
  have hbegin : Scene.Twins t { a with tree := a.tree.begin }
      { b with tree := b.tree.begin } :=
    ⟨htwins.left.begin, htwins.right.begin, htwins.violations⟩
  obtain ⟨ds', b', hb, htwins'⟩ := hr.twin hh hbegin hnone
  rw [invoke_of_finish hb]
  exact ⟨rfl, htwins'.left.commit _, htwins'.right.commit _, htwins'.violations⟩

end ActiveRule

/-! ## Walks -/

namespace Walk

/-- Two walks that have come equally far in one document, with rules that
look at nothing else. -/
structure Twins (t : Tree) (w x : Walk σ) : Prop where
  rules : x.rules = w.rules
  scenes : Scene.Twins t w.scene x.scene
  visitors : ∀ r ∈ w.rules, r.visitor.Repeatable t ∧ r.visitor.Crashless

variable {w w' x : Walk σ}

theorem violations_turn (policy : Policy) (w : Walk σ) (turn : Turn) :
    w.scene.violations <+: (w.turn policy turn).scene.violations := by
  rcases turn_cases policy w turn with h | ⟨r, -, -, -, h⟩
  · exact ⟨[], by rw [List.append_nil, h]⟩
  · rw [h]
    exact r.violations_invoke policy turn.phase turn.node w.scene

theorem violations_turns (policy : Policy) (w : Walk σ) (ts : List Turn) :
    w.scene.violations <+: (w.turns policy ts).scene.violations :=
  turns_induction (P := fun w' => w.scene.violations <+: w'.scene.violations)
    (fun w' turn h => h.trans (violations_turn policy w' turn))
      (List.prefix_refl _) ts

/-- One turn in both walks. -/
theorem Twins.turn (h : Twins t w x) (turn : Turn)
    (hnone : Uncorrected (w.turn (.ofTest test) turn).scene.violations) :
    Twins t (w.turn (.ofTest test) turn) (x.turn (.ofTest test) turn) := by
  have hleft := h.scenes.left.file
  have hall : turn.node.all x.tree.isAttached =
      turn.node.all w.tree.isAttached := by
    have hattached : x.tree.isAttached = w.tree.isAttached :=
      funext fun n => (h.scenes.right.file.isAttached n).trans
        (hleft.isAttached n).symm
    rw [hattached]
  -- On both sides the same rule is due, or none is.
  cases hr : w.rules[turn.rule]? with
  | none =>
    have hr' : x.rules[turn.rule]? = none := h.rules ▸ hr
    simpa only [Walk.turn, hr, hr'] using h
  | some r =>
    have hr' : x.rules[turn.rule]? = some r := h.rules ▸ hr
    cases hf : r.failed with
    | true => rwa [turn_of_failed hr hf, turn_of_failed hr' hf]
    | false =>
      cases hn : turn.node.all w.tree.isAttached with
      | false => rwa [turn_of_detached hn, turn_of_detached (hall.trans hn)]
      | true =>
        rw [turn_of_due hr hf hn] at hnone ⊢
        rw [turn_of_due hr' hf (hall.trans hn)]
        obtain ⟨hv, hc⟩ := h.visitors r (List.mem_of_getElem? hr)
        have hin : turn.node.all t.isAttached = true := by
          have hattached : t.isAttached = w.tree.isAttached := funext fun n =>
            (hleft.isAttached n).symm
          rwa [hattached]
        obtain ⟨hrule, hscenes⟩ := ActiveRule.invoke_twin (r := r)
          (ActiveRule.hook_repeatable hv hleft.left hin)
          (ActiveRule.hook_crashless hc) h.scenes hnone
        refine ⟨by rw [h.rules, hrule], hscenes, fun r' hmem => ?_⟩
        rcases List.mem_or_eq_of_mem_set hmem with hmem | rfl
        · exact h.visitors r' hmem
        · obtain ⟨memory, hvisitor⟩ :=
            r.visitor_invoke (.ofTest test) turn.phase turn.node w.scene
          rw [hvisitor]
          exact ⟨⟨hv.before, hv.after, hv.last⟩, ⟨hc.before, hc.after, hc.last⟩⟩

/-- Any number of turns in both walks. -/
theorem Twins.turns (h : Twins t w x) (ts : List Turn)
    (hnone : Uncorrected (w.turns (.ofTest test) ts).scene.violations) :
    Twins t (w.turns (.ofTest test) ts) (x.turns (.ofTest test) ts) := by
  induction ts generalizing w x with
  | nil => exact h
  | cons turn ts ih =>
    exact ih (h.turn turn (hnone.mono (violations_turns _ _ ts))) hnone

/-- While nothing counts as corrected the document stays, and once something
does, that stays. -/
theorem course_uncorrected {Good : Tree → String → Fix σ → Prop}
    (policy : Policy) (ht : w.tree.Sound) :
    Course policy w.tree.document
      (fun w' => Upheld Good (fun _ => False) Tree.LeftAlone w w' ∧
        Uncorrected w'.scene.violations)
      (fun w' => ¬Uncorrected w'.scene.violations) where
  sound h := h.1.consistent.sound
  document := by
    rintro w' ⟨hup, hnone⟩
    refine (hup.related fun v hv hc => ?_).document ht
    rw [hnone v hv] at hc
    cases hc
  turn := by
    rintro w' turn ⟨hup, -⟩
    by_cases hnone : Uncorrected (w'.turn policy turn).scene.violations
    · exact Or.inl ⟨upheld_turn upkeep_leftAlone hup turn, hnone⟩
    · exact Or.inr hnone
  lost turn hsome hnone := hsome (hnone.mono (violations_turn policy _ turn))

/-- A walk in which nothing counts as corrected is a tour of the document
there was at the start, for which the fuel is enough. -/
theorem run_uncorrected_iff {Good : Tree → String → Fix σ → Prop} {fuel : Nat}
    (ht : w.tree.Consistent) (hrules : ∀ r ∈ w.rules, r.visitor.CorrectsBy Good)
    (hw : Uncorrected w.scene.violations) :
    Walk.run policy fuel w = some w' ∧ Uncorrected w'.scene.violations ↔
      1 + w.tree.document.rootChildren.fuelFor ≤ fuel ∧
        Uncorrected w'.scene.violations ∧
        w' = (w.attend policy w.tree.document.tour).finish policy := by
  have up : Upkeep Good (fun _ => False) Tree.LeftAlone := upkeep_leftAlone
  have hstart : Upheld Good (fun _ => False) Tree.LeftAlone w w :=
    ⟨ht, hrules, List.prefix_refl _, fun _ => up.refl _⟩
  have hfollow := (course_uncorrected policy ht.sound).follow_run
    ⟨hstart, hw⟩ fuel
  constructor
  · rintro ⟨hrun, hnone⟩
    have hstraight := hfollow.straight fun hsome =>
      hfollow.lost hsome w' hrun hnone
    rw [hrun] at hstraight
    split at hstraight
    · next hfuel => exact ⟨hfuel, hnone, Option.some.inj hstraight⟩
    · cases hstraight
  · rintro ⟨hfuel, hnone, rfl⟩
    rw [hfollow.straight (not_not_intro hnone), if_pos hfuel]
    exact ⟨rfl, hnone⟩

theorem finish_attend (policy : Policy) (w : Walk σ)
    (occasions : List (Phase × NodeId)) :
    (w.attend policy occasions).finish policy = w.turns policy
      (Turn.rounds w.rules.length (occasions.map (fun o => (o.1, some o.2)) ++
        [(.afterLastNode, none)])) := by
  rw [finish_eq_turns, attend, length_turns, ← turns_append, ← rounds_append]

/-- **A walk that corrects nothing can be repeated**, on any tree that shows
the same document. -/
theorem run_twice {Good : Tree → String → Fix σ → Prop} {fuel : Nat}
    (h : Twins t w x) (hrules : ∀ r ∈ w.rules, r.visitor.CorrectsBy Good)
    (hrun : Walk.run (.ofTest test) fuel w = some w')
    (hnone : Uncorrected w'.scene.violations) :
    ∃ x', Walk.run (.ofTest test) fuel x = some x' ∧ Twins t w' x' := by
  have hcons := h.scenes.left.consistent
  have hdoc : x.tree.document = w.tree.document :=
    h.scenes.right.file.document.trans h.scenes.left.file.document.symm
  have up : Upkeep Good (fun _ => False) Tree.LeftAlone := upkeep_leftAlone
  have hw : Uncorrected w.scene.violations :=
    hnone.mono (upheld_run up hrules hcons hrun).violations
  obtain ⟨hfuel, -, rfl⟩ :=
    (run_uncorrected_iff hcons hrules hw).mp ⟨hrun, hnone⟩
  rw [finish_attend] at hnone ⊢
  have htwins := h.turns _ hnone
  refine ⟨_,
    ((run_uncorrected_iff h.scenes.right.consistent (by rwa [h.rules]) ?_).mpr
      ⟨?_, ?_, rfl⟩).1, ?_⟩
  · rwa [h.scenes.violations]
  · rwa [hdoc]
  · rwa [finish_attend, hdoc, h.rules, htwins.scenes.violations]
  · rwa [finish_attend, hdoc, h.rules]

end Walk

/-! ## Visits -/

/-- **A visit that corrects nothing can be repeated** on the tree it leaves:
it reports the same violations. -/
theorem Roster.visit_twice {Good : Tree → String → Fix σ → Prop} {fuel : Nat}
    {asked : List Asked} {roster : Roster σ} {v : Visited} (ht : t.Consistent)
    (hrules : ∀ r ∈ roster.rules, r.visitor.CorrectsBy Good)
    (hvisitors : ∀ r ∈ roster.rules, r.visitor.Repeatable t ∧
      r.visitor.Crashless)
    (hv : roster.visit fuel (.ofTest test) asked t = some v)
    (hnone : Uncorrected v.outcome.violations) (asked' : List Asked) :
    ∃ v', roster.visit fuel (.ofTest test) asked' v.tree = some v' ∧
      v'.outcome.violations = v.outcome.violations ∧
        v'.tree.document = v.tree.document := by
  -- The first visit corrected nothing, so it left the document as it was.
  have hsafe : AllSafe (fun _ => False) v.outcome.violations := by
    intro x hx hc
    rw [hnone x hx] at hc
    cases hc
  have up : Upkeep Good (fun _ => False) Tree.LeftAlone := upkeep_leftAlone
  obtain ⟨hcons, hrel⟩ := Roster.upheld_visit up hrules ht hv
  have hfile : t.SameFile v.tree :=
    ⟨ht.sound, hcons.sound, (hrel hsafe).document ht.sound⟩
  unfold Roster.visit at hv ⊢
  split at hv
  · next hempty =>
    cases hv
    exact ⟨_, if_pos hempty, rfl, rfl⟩
  · next hsome =>
    obtain ⟨w', hrun, rfl⟩ := Option.map_eq_some_iff.mp hv
    -- The second one starts from the same document: two walks side by side.
    have htwins : Walk.Twins t
        { rules := roster.rules, scene := { tree := t, asked } }
        { rules := roster.rules,
          scene := { tree := w'.scene.tree, asked := asked' } } :=
      ⟨rfl, ⟨⟨ht, .refl ht.sound, LineMemo.knows_empty _⟩,
        ⟨hcons, hfile, LineMemo.knows_empty _⟩, rfl⟩, hvisitors⟩
    have hnone' : Uncorrected w'.scene.violations := fun x hx =>
      hnone x (Violation.mem_sort.mpr hx)
    obtain ⟨x', hrun', htwins'⟩ := Walk.run_twice htwins hrules hrun hnone'
    refine ⟨_, by rw [if_neg hsome, hrun']; rfl, ?_, ?_⟩
    · exact congrArg Violation.sort htwins'.scenes.violations
    · exact htwins'.scenes.right.file.document.trans hfile.document.symm

end TreeLint
