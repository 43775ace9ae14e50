import TreeLint.Lint.Roster
import TreeLint.Proofs.Lint.Isolation
import TreeLint.Proofs.Lint.Lines

/-!
# A ledger of all reports

Violations are kept in one list for a whole visit. A violation that is to be
corrected is entered as corrected, and the flag is taken back later if the
correction fails or the call crashes, by the index of the violation in the
list.

A ledger keeps apart what the list mixes: for every report, who made it,
what was offered, the scenes before and after it was dealt with
(`Emission`), and whether the call it was made in crashed in the end
(`Entry`). It is filled by going through the calls of a walk once more, and
is never changed. A walk is `Booked` in it: the list of violations is the
ledger, entry by entry, and the corrections reported as failures are those
the ledger shows to have failed.

Specification, §4.3: every report is recorded and asks the policy once, and
the list of a file is sorted by offset.
-/

namespace TreeLint

variable {σ : Type} {policy : Policy} {rule : RuleId}

/-! ## Reports -/

/-- What a rule offers with a report: its word that it can correct the
violation or cannot, or a correction. -/
inductive Offer (σ : Type) where
  | word (fixable : Bool)
  | fix (fix : Fix σ)

def Offer.fixable : Offer σ → Bool
  | .word fixable => fixable
  | .fix _ => true

/-- A report that the policy answered. -/
structure Emission (σ : Type) where
  rule : RuleId
  offset : Nat
  message : String
  offer : Offer σ
  /-- The scene it was made on. -/
  before : Scene
  /-- The scene once it was dealt with, and with it the correction, if one
  was tried. -/
  after : Scene

namespace Hook

/-- The reports of a program, in the order they are made. -/
def emissions (policy : Policy) (rule : RuleId) :
    Hook σ → Scene → List (Emission σ)
  | .finish _, _ => []
  | .crash _, _ => []
  | .inspect k, s => (k s.tree).emissions policy rule s
  | .perform op k, s =>
    (k (op.apply s.tree).2).emissions policy rule
      { s with tree := (op.apply s.tree).1 }
  | .note event detail k, s =>
    k.emissions policy rule
      { s with notes := s.notes ++ [⟨rule, event, detail⟩] }
  | .emit offset message fixable k, s =>
    match policy s.asked rule offset with
    | .crash _ => []
    | .answer allowed =>
      let after := s.answered rule offset message fixable allowed
      ⟨rule, offset, message, .word fixable, s, after⟩ ::
        (k (if fixable && allowed then .allow else .deny)).emissions
          policy rule after
  | .emitAndFix offset message fix k, s =>
    match policy s.asked rule offset with
    | .crash _ => []
    | .answer false =>
      let after := s.answered rule offset message true false
      ⟨rule, offset, message, .fix fix, s, after⟩ :: (k .deny none).emissions
        policy rule after
    | .answer true =>
      let asked := s.answered rule offset message true true
      match fix.run s.tree.begin with
      | (tree, .crashed _) =>
        [⟨rule, offset, message, .fix fix, s, { asked with tree }⟩]
      | (tree, .finished memory none) =>
        let after := { asked with tree := tree.commit s.tree.checkpoint }
        ⟨rule, offset, message, .fix fix, s, after⟩ ::
          (k .allow (some memory)).emissions policy rule after
      | (tree, .finished memory (some error)) =>
        let after := Scene.abandonFix
          { asked with tree } s.tree.checkpoint s.violations.length rule
          offset error
        ⟨rule, offset, message, .fix fix, s, after⟩ ::
          (k .deny (some memory)).emissions policy rule after

end Hook

namespace Emission

/-- What the policy said to a report. -/
def verdict (policy : Policy) (m : Emission σ) : Verdict :=
  policy m.before.asked m.rule m.offset

/-- The error that the correction of a report ended with, if it was allowed. -/
def error? (policy : Policy) (m : Emission σ) : Option EditError :=
  match m.verdict policy, m.offer with
  | .answer true, .fix fix =>
    match (fix.run m.before.tree.begin).2 with
    | .finished _ failure => failure
    | .crashed _ => none
  | _, _ => none

/-- Whether a report counts as corrected when it has been dealt with. -/
def counts (policy : Policy) (m : Emission σ) : Bool :=
  decide (m.verdict policy = .answer true) && m.offer.fixable &&
    (m.error? policy).isNone

/-- The violation of a report, once it has been dealt with. -/
def violation (policy : Policy) (m : Emission σ) : Violation :=
  { offset := m.offset
    position := (m.before.lines.position m.before.tree m.offset).2
    message := m.message
    rule := m.rule
    fixable := m.offer.fixable
    corrected := m.counts policy }

/-- The failure that is reported if the correction of a report ended with an
error. -/
def failure? (policy : Policy) (m : Emission σ) : Option Failure :=
  (m.error? policy).map fun error =>
    ⟨m.rule, m.offset, .autocorrect, error.message⟩

/-- The question a report puts to the policy, with the answer. -/
def question (policy : Policy) (m : Emission σ) : Asked :=
  ⟨m.rule, m.offset, decide (m.verdict policy = .answer true)⟩

end Emission

/-- The correction of a report was allowed, and crashed. -/
def Emission.Breaks (policy : Policy) (m : Emission σ) : Prop :=
  ∃ fix reason, m.offer = .fix fix ∧ m.verdict policy = .answer true ∧
    (fix.run m.before.tree.begin).2 = .crashed reason

/-- How a report was dealt with. -/
structure Emission.Settled (policy : Policy) (m : Emission σ) : Prop where
  violations : m.after.violations = m.before.violations ++ [m.violation policy]
  failures : m.after.failures = m.before.failures ++ (m.failure? policy).toList
  asked : m.after.asked = m.before.asked ++ [m.question policy]
  /-- A correction that is not allowed is not tried. -/
  denied : ∀ fix, m.offer = .fix fix → m.verdict policy = .answer false →
    m.after.tree = m.before.tree
  /-- A correction that ends with an error is rolled back. -/
  abandoned : ∀ fix memory error, m.offer = .fix fix →
    m.verdict policy = .answer true →
    (fix.run m.before.tree.begin).2 = .finished memory (some error) →
    m.after.tree = (fix.run m.before.tree.begin).1.rollback
      m.before.tree.checkpoint

namespace Hook

variable {s s' : Scene} {offset : Nat} {message : String}
  {fixable allowed : Bool} {fix : Fix σ} {u : Tree} {memory : σ}
  {error : EditError}

/-! ### The ways a report is dealt with -/

theorem asked_answered (hask : policy s.asked rule offset = .answer allowed)
    (fixable : Bool) (offer : Offer σ) (after : Scene) :
    (s.answered rule offset message fixable allowed).asked =
      s.asked ++ [Emission.question policy ⟨rule, offset, message, offer, s,
        after⟩] := by
  simp [Scene.answered, Scene.enter, Emission.question, Emission.verdict, hask]

/-- A plain report, settled by the answer. -/
theorem settled_word (hask : policy s.asked rule offset = .answer allowed) :
    Emission.Settled policy (σ := σ)
      ⟨rule, offset, message, .word fixable, s,
        s.answered rule offset message fixable allowed⟩ where
  violations := by
    rw [Scene.answered_violations]
    cases allowed <;>
      simp [Emission.violation, Emission.counts, Emission.verdict,
        Emission.error?, hask, Offer.fixable,
        Scene.violation]
  failures := by simp [Emission.failure?, Emission.error?, Scene.answered,
    Scene.enter]
  asked := asked_answered hask fixable _ _
  denied := by simp
  abandoned := by simp

/-- A correction that is denied leaves the tree alone. -/
theorem settled_denied (hask : policy s.asked rule offset = .answer false) :
    Emission.Settled policy
      ⟨rule, offset, message, .fix fix, s,
        s.answered rule offset message true false⟩ where
  violations := by
    rw [Scene.answered_violations]
    simp [Emission.violation, Emission.counts, Emission.verdict, hask,
      Offer.fixable, Scene.violation]
  failures := by simp [Emission.failure?, Emission.error?, Emission.verdict,
    hask, Scene.answered, Scene.enter]
  asked := asked_answered hask true _ _
  denied _ _ _ := rfl
  abandoned := by simp [Emission.verdict, hask]

/-- A correction that is tried and does not end with an error: it succeeds
or crashes. -/
theorem settled_tried (hask : policy s.asked rule offset = .answer true)
    (hend : ∀ memory error, (fix.run s.tree.begin).2 ≠
      .finished memory (some error)) :
    Emission.Settled policy
      ⟨rule, offset, message, .fix fix, s,
        { s.answered rule offset message true true with tree := u }⟩ := by
  have hnone : ∀ after, Emission.error? policy ⟨rule, offset, message, .fix fix,
      s, after⟩ = none := by
    intro after
    simp only [Emission.error?, Emission.verdict, hask]
    split
    · next memory failure hfix =>
      cases failure with
      | none => rfl
      | some error => exact absurd hfix (hend memory error)
    · rfl
  refine ⟨?_, ?_, asked_answered hask true _ _, ?_, ?_⟩
  · rw [Scene.answered_violations]
    simp [Emission.violation, Emission.counts, Emission.verdict, hask, hnone,
      Offer.fixable, Scene.violation]
  · simp [Emission.failure?, hnone, Scene.answered, Scene.enter]
  · simp [Emission.verdict, hask]
  · rintro _ memory error ⟨⟩ - hfix
    exact absurd hfix (hend memory error)

/-- A correction that is allowed and gives up is taken back, and is entered
as a failure. -/
theorem settled_abandoned (hask : policy s.asked rule offset = .answer true)
    (hfix : fix.run s.tree.begin = (u, .finished memory (some error))) :
    Emission.Settled policy
      ⟨rule, offset, message, .fix fix, s,
        Scene.abandonFix { s.answered rule offset message true true with
          tree := u } s.tree.checkpoint
          s.violations.length rule offset error⟩ where
  violations := by
    rw [Scene.abandonFix, Scene.answered_violations, uncorrectAt_length]
    simp [Emission.violation, Emission.counts, Emission.verdict,
      Emission.error?, hask, hfix, Offer.fixable,
      Scene.violation, Violation.uncorrect]
  failures := by
    simp [Emission.failure?, Emission.error?, Emission.verdict, hask, hfix,
      Scene.abandonFix, Scene.answered,
      Scene.enter]
  asked := asked_answered hask true _ _
  denied := by simp [Emission.verdict, hask]
  abandoned := by
    rintro _ _ _ ⟨⟩ - -
    rw [hfix]
    rfl

/-! ### One program -/

/-- From `s` to `s'` some reports were posted, and nothing else was entered. -/
structure Posted (policy : Policy) (s s' : Scene)
    (ms : List (Emission σ)) : Prop where
  violations : s'.violations =
    s.violations ++ ms.map (Emission.violation policy)
  failures : s'.failures = s.failures ++ ms.filterMap (Emission.failure? policy)
  asked : s'.asked = s.asked ++ ms.map (Emission.question policy)
  settled : ∀ m ∈ ms, m.Settled policy

theorem Posted.nil (hv : s'.violations = s.violations)
    (hf : s'.failures = s.failures) (ha : s'.asked = s.asked) :
    Posted policy s s' ([] : List (Emission σ)) := by
  constructor <;> simp [hv, hf, ha]

/-- Entries of a run: the first report, then those of the rest. -/
theorem Posted.cons {m : Emission σ} {ms : List (Emission σ)}
    (hm : m.Settled policy) (h : Posted policy m.after s' ms) :
    Posted policy m.before s' (m :: ms) where
  violations := by rw [h.violations, hm.violations, List.append_assoc,
    List.map_cons, List.singleton_append]
  failures := by
    rw [h.failures, hm.failures, List.append_assoc]
    cases hfail : m.failure? policy <;> simp [hfail]
  asked := by rw [h.asked, hm.asked, List.append_assoc, List.map_cons,
    List.singleton_append]
  settled := List.forall_mem_cons.mpr ⟨hm, h.settled⟩

/-- Each report of a program is posted, in order. -/
theorem Runs.posted {h : Hook σ} {ds : List Deed} {e : HookEnd σ}
    (hr : h.Runs policy rule s ds s' e) :
    Posted policy s s' (h.emissions policy rule s) := by
  -- One case for each way a request can be answered. Only a report that the
  -- policy answers posts an entry.
  induction hr with
  | finish | crash => exact .nil rfl rfl rfl
  | inspect _ ih => exact ih
  | perform _ ih => exact ⟨ih.violations, ih.failures, ih.asked, ih.settled⟩
  | note _ ih => exact ⟨ih.violations, ih.failures, ih.asked, ih.settled⟩
  | emitCrashed hask =>
    simp only [emissions, hask]
    exact .nil rfl rfl rfl
  | askCrashed hask =>
    simp only [emissions, hask]
    exact .nil rfl rfl rfl
  | emit hask _ ih =>
    simp only [emissions, hask]
    exact .cons (settled_word hask) ih
  | denied hask _ ih =>
    simp only [emissions, hask]
    exact .cons (settled_denied hask) ih
  | fixCrashed hask hfix =>
    simp only [emissions, hask, hfix.run_eq]
    exact .cons (settled_tried hask (by simp [hfix.run_eq])) (.nil rfl rfl rfl)
  | fixed hask hfix _ ih =>
    simp only [emissions, hask, hfix.run_eq]
    exact .cons (settled_tried hask (by simp [hfix.run_eq])) ih
  | abandoned hask hfix _ ih =>
    simp only [emissions, hask, hfix.run_eq]
    exact .cons (settled_abandoned hask hfix.run_eq) ih

end Hook

def HookEnd.isCrash : HookEnd σ → Bool
  | .finished _ => false
  | .crashed _ => true

/-- If a correction crashes, so does the program. -/
theorem Hook.Runs.isCrash_of_breaks {h : Hook σ} {s s' : Scene} {ds : List Deed}
    {e : HookEnd σ} (hr : h.Runs policy rule s ds s' e) :
    ∀ m ∈ h.emissions policy rule s, m.Breaks policy → e.isCrash = true := by
  -- Only a correction that crashes breaks, and nothing follows it in its
  -- call.
  induction hr with
  | finish => simp [emissions]
  | crash | emitCrashed | askCrashed | fixCrashed => exact fun _ _ _ => rfl
  | inspect _ ih => exact ih
  | perform _ ih => exact ih
  | note _ ih => exact ih
  | emit hask _ ih =>
    simp only [emissions, hask, List.forall_mem_cons]
    exact ⟨by rintro ⟨_, _, ⟨⟩, -⟩, ih⟩
  | denied hask _ ih =>
    simp only [emissions, hask, List.forall_mem_cons]
    exact ⟨by simp [Emission.Breaks, Emission.verdict, hask], ih⟩
  | fixed hask hfix _ ih =>
    simp only [emissions, hask, hfix.run_eq, List.forall_mem_cons]
    refine ⟨?_, ih⟩
    rintro ⟨_, reason, ⟨⟩, -, hcrash⟩
    simp [hfix.run_eq] at hcrash
  | abandoned hask hfix _ ih =>
    simp only [emissions, hask, hfix.run_eq, List.forall_mem_cons]
    refine ⟨?_, ih⟩
    rintro ⟨_, reason, ⟨⟩, -, hcrash⟩
    simp [hfix.run_eq] at hcrash

/-! ## Scenes in order

Line starts are remembered along with the revision of the tree they were
worked out for. A scene is in order if what it remembers is right for its
tree, and nothing that can happen to it spoils that. -/

/-- The tree of a scene holds together, and what is remembered about lines
is right. -/
structure Scene.InOrder (s : Scene) : Prop where
  tree : s.tree.Consistent
  lines : s.lines.Knows s.tree

namespace Scene.InOrder

variable {s s' : Scene}

theorem onward (h : s.InOrder) (hcons : s'.tree.Consistent)
    (hon : s.tree.Onward s'.tree) (hlines : s'.lines = s.lines) : s'.InOrder :=
  ⟨hcons, hlines ▸ h.lines.onward hon⟩

theorem begin (h : s.InOrder) : Scene.InOrder { s with tree := s.tree.begin } :=
  h.onward h.tree.begin (.of_forest_eq rfl rfl) rfl

theorem commit (h : s.InOrder) (c : Checkpoint) :
    Scene.InOrder { s with tree := s.tree.commit c } :=
  h.onward (h.tree.close _) (.of_forest_eq rfl rfl) rfl

theorem rollback {c : Checkpoint} (h : s.InOrder)
    (htree : s'.tree = s.tree.rollback c)
    (hlines : s'.lines = s.lines) : s'.InOrder :=
  h.onward (htree ▸ (h.tree.unwind _).close _)
    (htree ▸ Tree.onward_rollback h.tree c) hlines

theorem run (h : s.InOrder) (ops : List Op) :
    Scene.InOrder { s with tree := Op.run s.tree ops } :=
  h.onward (h.tree.run ops) (Tree.onward_run h.tree ops) rfl

theorem answered (h : s.InOrder) (offset : Nat) (message : String)
    (fixable allowed : Bool) :
    (s.answered rule offset message fixable allowed).InOrder :=
  ⟨h.tree, h.lines.position offset⟩

theorem tried {fix : Fix σ} {ops : List Op} {u : Tree} {e : FixEnd σ}
    (h : s.InOrder) (offset : Nat) (message : String)
    (hfix : fix.Runs s.tree.begin ops u e) :
    Scene.InOrder
      { s.answered rule offset message true true with tree := u } := by
  rw [hfix.tree_eq]
  exact (h.answered offset message true true).begin.run ops

end Scene.InOrder

/-- A program leaves a scene in order, and makes its reports on scenes in
order. -/
theorem Hook.Runs.inOrder {h : Hook σ} {s s' : Scene} {ds : List Deed}
    {e : HookEnd σ} (hr : h.Runs policy rule s ds s' e) (hs : s.InOrder) :
    s'.InOrder ∧ ∀ m ∈ h.emissions policy rule s, m.before.InOrder := by
  -- Along the run: a correction is tried out and, unless it crashes, kept or
  -- taken back.
  induction hr with
  | finish | crash => exact ⟨hs, by simp [emissions]⟩
  | emitCrashed hask => exact ⟨hs, by simp [emissions, hask]⟩
  | askCrashed hask => exact ⟨hs, by simp [emissions, hask]⟩
  | inspect _ ih => exact ih hs
  | @perform op _ _ _ _ _ _ ih => exact ih (hs.run [op])
  | note _ ih => exact ih ⟨hs.tree, hs.lines⟩
  | emit hask _ ih =>
    simp only [emissions, hask, List.forall_mem_cons]
    obtain ⟨hs', hms⟩ := ih (hs.answered _ _ _ _)
    exact ⟨hs', hs, hms⟩
  | denied hask _ ih =>
    simp only [emissions, hask, List.forall_mem_cons]
    obtain ⟨hs', hms⟩ := ih (hs.answered _ _ _ _)
    exact ⟨hs', hs, hms⟩
  | fixCrashed hask hfix =>
    simp only [emissions, hask, hfix.run_eq, List.forall_mem_cons]
    exact ⟨hs.tried _ _ hfix, hs, by simp⟩
  | fixed hask hfix _ ih =>
    simp only [emissions, hask, hfix.run_eq, List.forall_mem_cons]
    obtain ⟨hs', hms⟩ := ih ((hs.tried _ _ hfix).commit _)
    exact ⟨hs', hs, hms⟩
  | abandoned hask hfix _ ih =>
    simp only [emissions, hask, hfix.run_eq, List.forall_mem_cons]
    obtain ⟨hs', hms⟩ := ih ((hs.tried _ _ hfix).rollback rfl rfl)
    exact ⟨hs', hs, hms⟩

/-! ## One call -/

/-- An entry of the ledger: a report, and whether the call it was made in
crashed in the end. -/
structure Entry (σ : Type) extends Emission σ where
  crashed : Bool

/-- The violation of a report, at the end of the call. -/
def Entry.violation (policy : Policy) (e : Entry σ) : Violation :=
  { e.toEmission.violation policy with
    corrected := e.counts policy && !e.crashed }

theorem Entry.violation_of_finish (m : Emission σ) :
    Entry.violation policy ⟨m, false⟩ = m.violation policy := by
  simp [Entry.violation, Emission.violation]

theorem Entry.violation_of_crash (m : Emission σ) :
    Entry.violation policy ⟨m, true⟩ = (m.violation policy).uncorrect := by
  simp [Entry.violation, Violation.uncorrect]

/-- Whether a failure is that of a correction. -/
def Failure.isOfCorrection (f : Failure) : Bool :=
  decide (f.phase = .autocorrect)

/-- A failure that a program reports is that of a correction. -/
theorem Hook.Posted.filter_failures {s s' : Scene} {ms : List (Emission σ)}
    (h : Hook.Posted policy s s' ms) :
    s'.failures.filter Failure.isOfCorrection =
      s.failures.filter Failure.isOfCorrection ++ ms.filterMap
        (Emission.failure? policy) := by
  have hall : ∀ f ∈ ms.filterMap (Emission.failure? policy),
      f.isOfCorrection = true := by
    intro f hf
    obtain ⟨m, -, hm⟩ := List.mem_filterMap.mp hf
    obtain ⟨error, -, rfl⟩ := Option.map_eq_some_iff.mp hm
    rfl
  rw [h.failures, List.filter_append, List.filter_eq_self.mpr hall]

/-- What the ledger says of the part of a walk from `s` to `s'`. -/
structure Booked (policy : Policy) (s s' : Scene)
    (es : List (Entry σ)) : Prop where
  violations : s'.violations = s.violations ++ es.map (Entry.violation policy)
  corrections : s'.failures.filter Failure.isOfCorrection =
    s.failures.filter Failure.isOfCorrection ++ es.filterMap fun e =>
      e.failure? policy
  asked : s'.asked = s.asked ++ es.map fun e => e.question policy
  settled : ∀ e ∈ es, e.Settled policy
  crashed : ∀ e ∈ es, e.Breaks policy → e.crashed = true
  inOrder : s.InOrder → s'.InOrder ∧ ∀ e ∈ es, e.before.InOrder

namespace Booked

variable {s s₁ s' : Scene} {es es' : List (Entry σ)}

theorem refl (s : Scene) : Booked policy s s ([] : List (Entry σ)) := by
  constructor <;> simp

/-- Books of two calls are kept one after the other. -/
theorem trans (h : Booked policy s s₁ es) (h' : Booked policy s₁ s' es') :
    Booked policy s s' (es ++ es') where
  violations := by rw [h'.violations, h.violations, List.map_append,
    List.append_assoc]
  corrections := by rw [h'.corrections, h.corrections, List.filterMap_append,
    List.append_assoc]
  asked := by rw [h'.asked, h.asked, List.map_append, List.append_assoc]
  settled := List.forall_mem_append.mpr ⟨h.settled, h'.settled⟩
  crashed := List.forall_mem_append.mpr ⟨h.crashed, h'.crashed⟩
  inOrder hs := by
    obtain ⟨hs₁, hes⟩ := h.inOrder hs
    obtain ⟨hs', hes'⟩ := h'.inOrder hs₁
    exact ⟨hs', List.forall_mem_append.mpr ⟨hes, hes'⟩⟩

end Booked

namespace ActiveRule

variable {phase : Phase} {node : Option NodeId} {r : ActiveRule σ} {s : Scene}

/-- The entries of a call. -/
def entries (policy : Policy) (phase : Phase) (node : Option NodeId)
    (r : ActiveRule σ) (s : Scene) : List (Entry σ) :=
  let start : Scene := { s with tree := s.tree.begin }
  ((r.hook phase node).emissions policy r.id start).map fun m =>
    ⟨m, ((r.hook phase node).run policy r.id start).2.isCrash⟩

/-- A call is booked. If it crashes, none of its violations counts as
corrected, and the crash itself is no failure of a correction. -/
theorem booked_invoke (hphase : phase ≠ .autocorrect) :
    Booked policy s (r.invoke policy phase node s).2
      (r.entries policy phase node s) := by
  obtain ⟨ds, after, e, hr⟩ :=
    (r.hook phase node).exists_runs policy r.id { s with tree := s.tree.begin }
  have hposted := hr.posted
  have hinOrder := fun hs : s.InOrder => hr.inOrder hs.begin
  simp only [entries, hr.run_eq]
  cases e with
  | finished memory =>
    rw [invoke_of_finish hr]
    refine ⟨?_, ?_,
      ?_, by
      simpa using hposted.settled, by
        simpa using hr.isCrash_of_breaks, fun hs => ?_⟩
    · rw [hposted.violations, List.map_map]
      exact congrArg _ (List.map_congr_left fun m _ =>
        (Entry.violation_of_finish m).symm)
    · rw [hposted.filter_failures, List.filterMap_map]
      rfl
    · rw [hposted.asked, List.map_map]
      rfl
    · exact ⟨(hinOrder hs).1.commit _, by simpa using (hinOrder hs).2⟩
  -- A call that crashes takes the flags of its reports back, and enters a
  -- failure of its own, which is not one of a correction.
  | crashed reason =>
    rw [invoke_of_crash hr]
    refine ⟨?_, ?_,
      ?_, by
      simpa using hposted.settled, by
        simpa using hr.isCrash_of_breaks, fun hs => ?_⟩
    · simp only [recover, hposted.violations, Violation.uncorrectFrom_length,
        List.map_map]
      exact congrArg _ (List.map_congr_left fun m _ =>
        (Entry.violation_of_crash m).symm)
    · have hown :
          [(⟨r.id,
            node.elim 0 (after.tree.rollback s.tree.checkpoint).startOffset,
            phase, reason⟩ :
          Failure)].filter Failure.isOfCorrection = [] := by
        simp [Failure.isOfCorrection, hphase]
      simp only [recover, List.filter_append, hposted.filter_failures, hown,
        List.append_nil, List.filterMap_map]
      rfl
    · simp only [recover, hposted.asked, List.map_map]
      rfl
    · exact ⟨(hinOrder hs).1.rollback rfl rfl, by simpa using (hinOrder hs).2⟩

end ActiveRule

/-! ## A walk -/

namespace Walk

variable {w : Walk σ}

/-- The entries of a turn. -/
def turnEntries (policy : Policy) (w : Walk σ) (t : Turn) : List (Entry σ) :=
  match w.rules[t.rule]? with
  | none => []
  | some r =>
    if r.failed || !t.node.all w.tree.isAttached then []
    else r.entries policy t.phase t.node w.scene

/-- The ledger of turns one after the other. -/
def ledger (policy : Policy) : Walk σ → List Turn → List (Entry σ)
  | _, [] => []
  | w, t :: ts => w.turnEntries policy t ++ (w.turn policy t).ledger policy ts

/-- **Step.** What a turn adds to the scene is what its entries say. -/
theorem booked_turn (w : Walk σ) {t : Turn} (hphase : t.phase ≠ .autocorrect) :
    Booked policy w.scene (w.turn policy t).scene (w.turnEntries policy t) := by
  cases hr : w.rules[t.rule]? with
  | none =>
    simp only [turn, turnEntries, hr]
    exact .refl _
  | some r =>
    by_cases hidle : (r.failed || !t.node.all w.tree.isAttached) = true
    · simp only [turn, turnEntries, hr, hidle, if_true]
      exact .refl _
    · simp only [turn, turnEntries, hr, hidle]
      exact ActiveRule.booked_invoke hphase

/-- **Turns one after the other are booked.** -/
theorem booked_turns (w : Walk σ) {ts : List Turn}
    (hphases : ∀ t ∈ ts, t.phase ≠ .autocorrect) :
    Booked policy w.scene (w.turns policy ts).scene (w.ledger policy ts) := by
  induction ts generalizing w with
  | nil => exact .refl _
  | cons t ts ih =>
    obtain ⟨ht, hts⟩ := List.forall_mem_cons.mp hphases
    exact (w.booked_turn ht).trans (ih _ hts)

/-- A walk that ends is rounds of turns, and booked. -/
theorem booked_run {fuel : Nat} {w' : Walk σ}
    (h : Walk.run policy fuel w = some w') :
    ∃ occasions, w' = w.turns policy (Turn.rounds w.rules.length occasions) ∧
      Booked policy w.scene w'.scene
        (w.ledger policy (Turn.rounds w.rules.length occasions)) := by
  obtain ⟨v, ⟨occasions, hphases, rfl⟩, rfl⟩ := run_eq_last h
  rw [attend, length_turns, ← turns_append, ← rounds_append]
  refine ⟨_, rfl, booked_turns w fun t ht => ?_⟩
  obtain ⟨o, ho, hturn⟩ := List.mem_flatMap.mp ht
  obtain ⟨i, -, rfl⟩ := List.mem_map.mp hturn
  rcases List.mem_append.mp ho with ho | ho
  · obtain ⟨visited, hvisited, rfl⟩ := List.mem_map.mp ho
    rcases hphases visited hvisited with hphase | hphase <;> simp [hphase]
  · simp [List.mem_singleton.mp ho]

end Walk

/-! ## A visit -/

/-- `vs` are the violations of `found`, by offset; those of one offset are
in the order they were found. -/
structure Violation.StablySorted (found vs : List Violation) : Prop where
  perm : vs.Perm found
  ordered : vs.Pairwise fun a b => a.offset ≤ b.offset
  stable : ∀ offset, vs.filter (fun v => v.offset == offset) =
    found.filter fun v => v.offset == offset

/-- **Violations are sorted by offset, and those of one offset stay in the
order in which they were found** (specification, §4.3). -/
theorem Violation.stablySorted_sort (found : List Violation) :
    StablySorted found (Violation.sort found) := by
  have htrans : ∀ a b c : Violation, decide (a.offset ≤ b.offset) = true →
      decide (b.offset ≤ c.offset) = true →
      decide (a.offset ≤ c.offset) = true := by
    simp only [decide_eq_true_eq]
    exact fun a b c => Nat.le_trans
  have htotal : ∀ a b : Violation,
      (decide (a.offset ≤ b.offset) || decide (b.offset ≤ a.offset)) =
      true := by
    simp only [Bool.or_eq_true, decide_eq_true_eq]
    exact fun a b => Nat.le_total _ _
  have hperm : (Violation.sort found).Perm found := List.mergeSort_perm _ _
  refine ⟨hperm, by
    simpa [sort] using List.pairwise_mergeSort htrans htotal found,
    fun offset => ?_⟩
  -- those of one offset are in order as they are found, so sorting keeps
  -- them so
  have hone : (found.filter fun v => v.offset == offset).Pairwise fun a b =>
      decide (a.offset ≤ b.offset) = true := by
    refine List.pairwise_of_forall_mem_list fun a ha b hb => ?_
    simp only [List.mem_filter, beq_iff_eq] at ha hb
    simp [ha.2, hb.2]
  have hsub :=
    (List.sublist_mergeSort htrans htotal hone List.filter_sublist).filter
      fun v => v.offset == offset
  rw [List.filter_filter] at hsub
  simp only [Bool.and_self] at hsub
  exact (hsub.eq_of_length (hperm.filter _).length_eq.symm).symm

namespace Roster

variable {roster : Roster σ} {asked : List Asked} {t : Tree} {v : Visited}
  {es : List (Entry σ)}

/-- The walk with which a visit begins. -/
def start (roster : Roster σ) (asked : List Asked) (t : Tree) : Walk σ :=
  { rules := roster.rules, scene := { tree := t, asked } }

/-- `es` is the ledger of rounds of turns that make the calls of the visit
`v`, ask its questions, and lead to its tree. -/
def HasLedger (policy : Policy) (roster : Roster σ) (asked : List Asked)
    (t : Tree) (v : Visited) (es : List (Entry σ)) : Prop :=
  ∃ occasions,
    let ts := Turn.rounds roster.rules.length occasions
    v.calls = ((roster.start asked t).turns policy ts).calls ∧
      v.asked = ((roster.start asked t).turns policy ts).scene.asked ∧
      v.tree = ((roster.start asked t).turns policy ts).tree ∧
        es = (roster.start asked t).ledger policy ts

/-- **Every visit has a ledger**, and what it reports is what the ledger
says. -/
theorem exists_ledger {fuel : Nat}
    (hv : roster.visit fuel policy asked t = some v) :
    ∃ es scene, HasLedger policy roster asked t v es ∧
      Booked policy (roster.start asked t).scene scene es ∧
      v.asked = scene.asked ∧ Violation.StablySorted scene.violations
        v.outcome.violations ∧
      v.outcome.failures = roster.failures ++ scene.failures := by
  unfold Roster.visit at hv
  split at hv
  · cases hv
    have hnone : Violation.StablySorted [] [] := by
      simpa [Violation.sort] using Violation.stablySorted_sort []
    exact ⟨[], _, ⟨[], rfl, rfl, rfl, rfl⟩, .refl _, rfl,
      hnone, by simp [start]⟩
  · obtain ⟨w, hw, rfl⟩ := Option.map_eq_some_iff.mp hv
    obtain ⟨occasions, rfl, hbooked⟩ := Walk.booked_run hw
    exact ⟨_, _, ⟨occasions, rfl, rfl, rfl, rfl⟩, hbooked, rfl,
      Violation.stablySorted_sort _, rfl⟩

end Roster

end TreeLint
