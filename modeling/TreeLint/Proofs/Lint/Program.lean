import TreeLint.Lint.Hook
import TreeLint.Proofs.Tree.Rollback

/-!
# What a program does, request by request

`Hook.run` and `Fix.run` say where a program ends. `Hook.Runs` and
`Fix.Runs` say the same as relations, one rule for every way a request can
go, and keep a record of what was done on the way: the operations on the
tree, those that open and close the transaction of a correction included,
and the violations reported. Evaluator and relation agree (`Hook.runs_iff`),
so what is proved by going through the rules holds of every call of every
rule.

Three things follow for any program at all. The tree it leaves is the one
its operations lead to (`Runs.tree_eq`), what it reports is added behind
what was reported before (`Runs.reported`), and so are the corrections that
failed (`Runs.failures_eq`).

The requests are those of the specification, §4.3: to report, and to report
together with a correction.
-/

namespace TreeLint

theorem Op.run_append (t : Tree) (xs ys : List Op) :
    Op.run t (xs ++ ys) = Op.run (Op.run t xs) ys := by
  induction xs generalizing t with
  | nil => rfl
  | cons op xs ih => exact ih _

/-! ## Corrections -/

namespace Fix

variable {σ : Type}

/-- A correction, carried out on a tree, performs some operations and ends
with a tree in some way. -/
inductive Runs : Fix σ → Tree → List Op → Tree → FixEnd σ → Prop
  | finish {t : Tree} (memory : σ) (failure : Option EditError) :
      Runs (.finish memory failure) t [] t (.finished memory failure)
  | crash {t : Tree} (reason : String) :
    Runs (.crash reason) t [] t (.crashed reason)
  | inspect {k : Tree → Fix σ} {t u : Tree} {ops : List Op} {e : FixEnd σ}
      (h : Runs (k t) t ops u e) : Runs (.inspect k) t ops u e
  | perform {op : Op} {k : Reply → Fix σ} {t u : Tree} {ops : List Op}
      {e : FixEnd σ} (h : Runs (k (op.apply t).2) (op.apply t).1 ops u e) :
      Runs (.perform op k) t (op :: ops) u e

variable {fix : Fix σ} {t u : Tree} {ops : List Op} {e : FixEnd σ}

/-- The relation describes a run: where it holds, that is what running
gives. -/
theorem Runs.run_eq (h : fix.Runs t ops u e) : fix.run t = (u, e) := by
  induction h with
  | finish | crash => rfl
  | inspect _ ih => exact ih
  | perform _ ih => exact ih

/-- And every program has a run. -/
theorem exists_runs (fix : Fix σ) (t : Tree) :
    ∃ ops, fix.Runs t ops (fix.run t).1 (fix.run t).2 := by
  induction fix generalizing t with
  | finish memory failure => exact ⟨[], .finish memory failure⟩
  | crash reason => exact ⟨[], .crash reason⟩
  | inspect k ih =>
    obtain ⟨ops, h⟩ := ih t t
    exact ⟨ops, .inspect h⟩
  | perform op k ih =>
    obtain ⟨ops, h⟩ := ih (op.apply t).2 (op.apply t).1
    exact ⟨op :: ops, .perform h⟩

theorem runs_iff : (∃ ops, fix.Runs t ops u e) ↔ fix.run t = (u, e) := by
  constructor
  · rintro ⟨ops, h⟩
    exact h.run_eq
  · intro h
    simpa only [h] using fix.exists_runs t

theorem Runs.tree_eq (h : fix.Runs t ops u e) : u = Op.run t ops := by
  induction h with
  | finish | crash => rfl
  | inspect _ ih => exact ih
  | perform _ ih => exact ih

/-- Operations carried out until one fails: the first fails, or the others
follow. -/
theorem Runs.ofOps_cons {memory : σ} {op : Op} {os : List Op}
    (h : (Fix.ofOps memory (op :: ops)).Runs t os u e) :
    ∃ rest, os = op :: rest ∧
      ((∃ error, (op.apply t).2 = .failed error ∧ rest = [] ∧
        u = (op.apply t).1 ∧
          e = .finished memory (some error)) ∨
        (∀ error, (op.apply t).2 ≠ .failed error) ∧
          (Fix.ofOps memory ops).Runs (op.apply t).1 rest u e) := by
  simp only [Fix.ofOps] at h
  cases h with
  | @perform _ _ _ _ rest _ h =>
    refine ⟨rest, rfl, ?_⟩
    cases hreply : (op.apply t).2 with
    | failed error =>
      rw [hreply] at h
      cases h
      exact Or.inl ⟨error, rfl, rfl, rfl, rfl⟩
    | done | created | opened =>
      rw [hreply] at h
      exact Or.inr ⟨by simp, h⟩

end Fix

/-! ## Hooks -/

/-- Something a hook does: an operation on the tree, or a report. -/
inductive Deed where
  | edit (op : Op)
  | report (offset : Nat) (message : String) (fixable : Bool)
deriving DecidableEq, Repr

namespace Deed

def op? : Deed → Option Op
  | .edit op => some op
  | .report .. => none

def isReport : Deed → Bool
  | .edit _ => false
  | .report .. => true

/-- The operations on the tree among some deeds. -/
def ops (ds : List Deed) : List Op := ds.filterMap op?

@[simp] theorem ops_nil : ops [] = [] := rfl

@[simp] theorem ops_edit (op : Op) (ds : List Deed) :
    ops (.edit op :: ds) = op :: ops ds :=
  rfl

@[simp] theorem ops_report (o : Nat) (m : String) (f : Bool) (ds : List Deed) :
    ops (.report o m f :: ds) = ops ds := rfl

@[simp] theorem ops_append (ds es : List Deed) :
    ops (ds ++ es) = ops ds ++ ops es :=
  List.filterMap_append

@[simp] theorem ops_map_edit (os : List Op) : ops (os.map .edit) = os := by
  induction os with
  | nil => rfl
  | cons op os ih => simp [ih]

@[simp] theorem isReport_edit (op : Op) : isReport (.edit op) = false := rfl

@[simp] theorem isReport_report (o : Nat) (m : String) (f : Bool) :
    isReport (.report o m f) = true :=
  rfl

end Deed

/-- The report a violation comes from. -/
def Violation.deed (v : Violation) : Deed :=
  .report v.offset v.message v.fixable

/-- The scene after the policy has answered a report. -/
def Scene.answered (s : Scene) (rule : RuleId) (offset : Nat) (message : String)
    (fixable allowed : Bool) : Scene :=
  ({ s with asked := s.asked ++ [⟨rule, offset, allowed⟩] } : Scene).enter rule
    offset message fixable allowed

/-- The violation that is entered for a report. -/
def Scene.violation (s : Scene) (rule : RuleId) (offset : Nat)
    (message : String) (fixable allowed : Bool) : Violation :=
  { offset, position := (s.lines.position s.tree offset).2, message,
    rule, fixable
    corrected := fixable && allowed }

theorem Scene.answered_violations (s : Scene) (rule : RuleId) (offset : Nat)
    (message : String) (fixable allowed : Bool) :
    (s.answered rule offset message fixable allowed).violations =
      s.violations ++ [s.violation rule offset message fixable allowed] := rfl

namespace Hook

variable {σ : Type} {policy : Policy} {rule : RuleId}

/-- A hook, carried out on a scene, does some deeds and ends with a scene in
some way. -/
inductive Runs (policy : Policy) (rule : RuleId) :
    Hook σ → Scene → List Deed → Scene → HookEnd σ → Prop
  | finish {s : Scene} (memory : σ) :
      Runs policy rule (.finish memory) s [] s (.finished memory)
  | crash {s : Scene} (reason : String) :
      Runs policy rule (.crash reason) s [] s (.crashed reason)
  | inspect {k : Tree → Hook σ} {s s' : Scene} {ds : List Deed} {e : HookEnd σ}
      (h : Runs policy rule (k s.tree) s ds s' e) :
        Runs policy rule (.inspect k) s ds s' e
  | perform {op : Op} {k : Reply → Hook σ} {s s' : Scene} {ds : List Deed}
      {e : HookEnd σ}
      (h : Runs policy rule (k (op.apply s.tree).2)
        { s with tree := (op.apply s.tree).1 } ds s' e) :
      Runs policy rule (.perform op k) s (.edit op :: ds) s' e
  | note {event detail : String} {k : Hook σ} {s s' : Scene} {ds : List Deed}
      {e : HookEnd σ}
      (h : Runs policy rule k
        { s with notes := s.notes ++ [⟨rule, event, detail⟩] } ds s' e) :
      Runs policy rule (.note event detail k) s ds s' e
  /-- The policy breaks down over a report. -/
  | emitCrashed {offset : Nat} {message : String} {fixable : Bool}
      {k : Decision → Hook σ} {s : Scene} {reason : String}
      (hask : policy s.asked rule offset = .crash reason) :
      Runs policy rule (.emit offset message fixable k) s [] s (.crashed reason)
  | emit {offset : Nat} {message : String} {fixable allowed : Bool}
      {k : Decision → Hook σ} {s s' : Scene} {ds : List Deed} {e : HookEnd σ}
      (hask : policy s.asked rule offset = .answer allowed)
      (h : Runs policy rule (k (if fixable && allowed then .allow else .deny))
        (s.answered rule offset message fixable allowed) ds s' e) :
      Runs policy rule (.emit offset message fixable k) s
        (.report offset message fixable :: ds) s' e
  | askCrashed {offset : Nat} {message : String} {fix : Fix σ}
      {k : Decision → Option σ → Hook σ} {s : Scene} {reason : String}
      (hask : policy s.asked rule offset = .crash reason) :
      Runs policy rule (.emitAndFix offset message fix k) s [] s
        (.crashed reason)
  | denied {offset : Nat} {message : String} {fix : Fix σ}
      {k : Decision → Option σ → Hook σ} {s s' : Scene} {ds : List Deed}
      {e : HookEnd σ} (hask : policy s.asked rule offset = .answer false)
      (h : Runs policy rule (k .deny none)
        (s.answered rule offset message true false) ds s' e) :
      Runs policy rule (.emitAndFix offset message fix k) s
        (.report offset message true :: ds) s' e
  /-- The correction crashes, and its transaction stays open. -/
  | fixCrashed {offset : Nat} {message : String} {fix : Fix σ}
      {k : Decision → Option σ → Hook σ} {s : Scene} {ops : List Op}
      {u : Tree} {reason : String}
      (hask : policy s.asked rule offset = .answer true)
      (hfix : fix.Runs s.tree.begin ops u (.crashed reason)) :
      Runs policy rule (.emitAndFix offset message fix k) s
        (.report offset message true :: .edit .begin :: ops.map .edit)
        { s.answered rule offset message true true with
          tree := u } (.crashed reason)
  | fixed {offset : Nat} {message : String} {fix : Fix σ}
      {k : Decision → Option σ → Hook σ} {s s' : Scene} {ops : List Op}
      {u : Tree} {memory : σ} {ds : List Deed} {e : HookEnd σ}
      (hask : policy s.asked rule offset = .answer true)
      (hfix : fix.Runs s.tree.begin ops u (.finished memory none))
      (h : Runs policy rule (k .allow (some memory))
        { s.answered rule offset message true true with
          tree := u.commit s.tree.checkpoint } ds s' e) :
      Runs policy rule (.emitAndFix offset message fix k) s
        (.report offset message true :: .edit .begin ::
          (ops.map .edit ++ .edit (.commit s.tree.checkpoint) :: ds)) s' e
  | abandoned {offset : Nat} {message : String} {fix : Fix σ}
      {k : Decision → Option σ → Hook σ} {s s' : Scene} {ops : List Op}
      {u : Tree} {memory : σ} {error : EditError} {ds : List Deed}
      {e : HookEnd σ} (hask : policy s.asked rule offset = .answer true)
      (hfix : fix.Runs s.tree.begin ops u (.finished memory (some error)))
      (h : Runs policy rule (k .deny (some memory))
        (Scene.abandonFix { s.answered rule offset message true true with
          tree := u } s.tree.checkpoint s.violations.length rule offset error)
          ds s' e) :
      Runs policy rule (.emitAndFix offset message fix k) s
        (.report offset message true :: .edit .begin ::
          (ops.map .edit ++ .edit (.rollback s.tree.checkpoint) :: ds)) s' e

variable {h : Hook σ} {s s' : Scene} {ds : List Deed} {e : HookEnd σ}

/-! ### Evaluator and relation agree -/

theorem report_of_crash {offset : Nat} {message reason : String}
    {fixable : Bool} (hask : policy s.asked rule offset = .crash reason) :
    s.report policy rule offset message fixable = (s, .error reason) := by
  simp only [Scene.report, hask]

/-- If the policy answers, the violation is entered, and the decision is to
allow if the policy does and the violation can be corrected (specification,
§4.3). -/
theorem report_of_answer {offset : Nat} {message : String}
    {fixable allowed : Bool}
    (hask : policy s.asked rule offset = .answer allowed) :
    s.report policy rule offset message fixable =
      (s.answered rule offset message fixable allowed,
        .ok (if fixable && allowed then .allow else .deny)) := by
  simp only [Scene.report, hask, Scene.answered]

theorem length_answered (s : Scene) (offset : Nat) (message : String)
    (fixable allowed : Bool) :
    (s.answered rule offset message fixable allowed).violations.length =
      s.violations.length + 1 := by
  simp [Scene.answered_violations]

/-- Where the relation holds, that is what running the hook gives. -/
theorem Runs.run_eq (hr : h.Runs policy rule s ds s' e) :
    h.run policy rule s = (s', e) := by
  -- One case for each way a request can be answered.
  induction hr with
  | finish | crash => rfl
  | inspect _ ih => exact ih
  | perform _ ih => exact ih
  | note _ ih => exact ih
  | emitCrashed hask => simp only [Hook.run, report_of_crash hask]
  | emit hask _ ih => simp only [Hook.run, report_of_answer hask, ih]
  | askCrashed hask => simp only [Hook.run, report_of_crash hask]
  | denied hask _ ih =>
    simp only [Hook.run, report_of_answer hask]
    exact ih
  | fixCrashed hask hfix =>
    simp only [Hook.run, report_of_answer hask]
    simp only [Bool.and_self, if_true, Scene.answered, Scene.enter, hfix.run_eq]
  | fixed hask hfix _ ih =>
    simp only [Hook.run, report_of_answer hask]
    simpa only [Bool.and_self, if_true, Scene.answered, Scene.enter,
      hfix.run_eq] using ih
  | abandoned hask hfix _ ih =>
    simp only [Hook.run, report_of_answer hask]
    simp only [Bool.and_self, if_true, length_answered, Nat.add_sub_cancel]
    simpa only [Scene.answered, Scene.enter, hfix.run_eq] using ih

/-- Every hook has a run, with the deeds it did. -/
theorem exists_runs (policy : Policy) (rule : RuleId) (h : Hook σ) (s : Scene) :
    ∃ ds s' e, h.Runs policy rule s ds s' e := by
  -- One case for each request; a correction splits by what the policy says
  -- and by how it ends.
  induction h generalizing s with
  | finish memory => exact ⟨_, _, _, .finish memory⟩
  | crash reason => exact ⟨_, _, _, .crash reason⟩
  | inspect k ih =>
    obtain ⟨_, _, _, hk⟩ := ih s.tree s
    exact ⟨_, _, _, .inspect hk⟩
  | perform op k ih =>
    obtain ⟨_, _, _, hk⟩ := ih (op.apply s.tree).2
      { s with tree := (op.apply s.tree).1 }
    exact ⟨_, _, _, .perform hk⟩
  | emit offset message fixable k ih =>
    cases hask : policy s.asked rule offset with
    | crash reason => exact ⟨_, _, _, .emitCrashed hask⟩
    | answer allowed =>
      obtain ⟨_, _, _, hk⟩ :=
        ih _ (s.answered rule offset message fixable allowed)
      exact ⟨_, _, _, .emit hask hk⟩
  | emitAndFix offset message fix k ih =>
    cases hask : policy s.asked rule offset with
    | crash reason => exact ⟨_, _, _, .askCrashed hask⟩
    | answer allowed =>
      cases allowed with
      | false =>
        obtain ⟨_, _, _, hk⟩ :=
          ih .deny none (s.answered rule offset message true false)
        exact ⟨_, _, _, .denied hask hk⟩
      | true =>
        obtain ⟨ops, hfix⟩ := fix.exists_runs s.tree.begin
        cases hend : (fix.run s.tree.begin).2 with
        | crashed reason => exact ⟨_, _, _, .fixCrashed hask (hend ▸ hfix)⟩
        | finished memory failure =>
          cases failure with
          | none =>
            obtain ⟨_, _, _, hk⟩ := ih .allow (some memory) _
            exact ⟨_, _, _, .fixed hask (hend ▸ hfix) hk⟩
          | some error =>
            obtain ⟨_, _, _, hk⟩ := ih .deny (some memory) _
            exact ⟨_, _, _, .abandoned hask (hend ▸ hfix) hk⟩
  | note event detail k ih =>
    obtain ⟨_, _, _, hk⟩ := ih
      { s with notes := s.notes ++ [⟨rule, event, detail⟩] }
    exact ⟨_, _, _, .note hk⟩

/-- **Evaluator and relation agree.** -/
theorem runs_iff :
    (∃ ds, h.Runs policy rule s ds s' e) ↔ h.run policy rule s = (s', e) := by
  constructor
  · rintro ⟨ds, hr⟩
    exact hr.run_eq
  · intro hrun
    obtain ⟨ds, s₁, e₁, hr⟩ := h.exists_runs policy rule s
    have heq := hr.run_eq.symm.trans hrun
    cases heq
    exact ⟨ds, hr⟩

/-! ### What any program leaves behind -/

/-- The tree is the one the operations lead to. -/
theorem Runs.tree_eq (hr : h.Runs policy rule s ds s' e) :
    s'.tree = Op.run s.tree (Deed.ops ds) := by
  induction hr with
  | finish | crash | emitCrashed | askCrashed => rfl
  | inspect _ ih => exact ih
  | perform _ ih => exact ih
  | note _ ih => exact ih
  | emit _ _ ih => exact ih
  | denied _ _ ih => exact ih
  | fixCrashed _ hfix =>
    rw [Deed.ops_report, Deed.ops_edit, Deed.ops_map_edit]
    exact hfix.tree_eq
  | fixed _ hfix _ ih =>
    rw [ih, Deed.ops_report, Deed.ops_edit, Deed.ops_append, Deed.ops_map_edit,
      Op.run, Op.run_append,
      Deed.ops_edit, hfix.tree_eq]
    rfl
  | abandoned _ hfix _ ih =>
    rw [ih, Deed.ops_report, Deed.ops_edit, Deed.ops_append, Deed.ops_map_edit,
      Op.run, Op.run_append,
      Deed.ops_edit, Scene.abandonFix, hfix.tree_eq]
    rfl

/-- The scene `s'` has, behind the violations of `s`, those of some reports
of a rule. -/
def Reported (rule : RuleId) (s s' : Scene) (ds : List Deed) : Prop :=
  ∃ emitted, s'.violations = s.violations ++ emitted ∧
    (∀ v ∈ emitted, v.rule = rule) ∧
    emitted.map Violation.deed = ds.filter Deed.isReport

theorem Reported.cons {s₁ : Scene} (v : Violation)
    (hv : s₁.violations = s.violations ++ [v]) (hrule : v.rule = rule)
    (hr : Reported rule s₁ s' ds) : Reported rule s s' (v.deed :: ds) := by
  obtain ⟨emitted, hs, hrules, hds⟩ := hr
  refine ⟨v :: emitted, ?_, ?_, ?_⟩
  · rw [hs, hv, List.append_assoc, List.singleton_append]
  · exact List.forall_mem_cons.mpr ⟨hrule, hrules⟩
  · rw [List.map_cons, hds]
    exact (List.filter_cons_of_pos rfl).symm

theorem uncorrectAt_length (vs : List Violation) (v : Violation) :
    Violation.uncorrectAt vs.length (vs ++ [v]) = vs ++ [v.uncorrect] := by
  simp [Violation.uncorrectAt, List.modify_eq_take_drop]

/-- The deeds that open, make and close a correction are no reports. -/
theorem Reported.fix {o : Nat} {m : String} (ops : List Op) (close : Op)
    (hr : Reported rule s s' (.report o m true :: ds)) :
    Reported rule s s' (.report o m true :: .edit .begin ::
      (ops.map .edit ++ .edit close :: ds)) := by
  obtain ⟨emitted, hs, hrules, hds⟩ := hr
  refine ⟨emitted, hs, hrules, ?_⟩
  rw [hds]
  simp [List.filter_cons]

/-- What a program reports is added behind what was reported before, in
order. -/
theorem Runs.reported (hr : h.Runs policy rule s ds s' e) :
    Reported rule s s' ds := by
  induction hr with
  | finish | crash | emitCrashed | askCrashed =>
    exact ⟨[], by simp, by simp, rfl⟩
  | inspect _ ih => exact ih
  | perform _ ih => exact ih
  | note _ ih => exact ih
  | @emit o m f allowed _ s _ _ _ _ _ ih =>
    exact ih.cons (s.violation rule o m f allowed) rfl rfl
  | @denied o m _ _ s _ _ _ _ _ ih =>
    exact ih.cons (s.violation rule o m true false) rfl rfl
  | @fixCrashed o m _ _ s _ _ _ _ _ =>
    refine ⟨[s.violation rule o m true true],
      rfl, by simp [Scene.violation], ?_⟩
    simp [Violation.deed, Scene.violation, List.filter_cons]
  | @fixed o m _ _ s _ _ _ _ _ _ _ _ _ ih =>
    exact (ih.cons (s.violation rule o m true true) rfl rfl).fix _ _
  | @abandoned o m _ _ s _ _ _ _ _ _ _ _ _ _ ih =>
    exact (ih.cons (s.violation rule o m true true).uncorrect
      (uncorrectAt_length _ _) rfl).fix _ _

/-- The only failures a program itself reports are corrections that could
not be carried out. -/
theorem Runs.failures_eq (hr : h.Runs policy rule s ds s' e) :
    ∃ fs, s'.failures = s.failures ++ fs ∧ ∀ f ∈ fs, f.rule = rule ∧
      f.phase = .autocorrect := by
  induction hr with
  | finish | crash | emitCrashed | askCrashed | fixCrashed =>
    exact ⟨[], by simp [Scene.answered, Scene.enter]⟩
  | inspect _ ih => exact ih
  | perform _ ih => exact ih
  | note _ ih => exact ih
  | emit _ _ ih => exact ih
  | denied _ _ ih => exact ih
  | fixed _ _ _ ih => exact ih
  | abandoned _ _ _ ih =>
    obtain ⟨fs, hs, hfs⟩ := ih
    refine ⟨_ :: fs, hs.trans (List.append_assoc _ [_] _), ?_⟩
    exact List.forall_mem_cons.mpr ⟨⟨rfl, rfl⟩, hfs⟩

end Hook

end TreeLint
