import TreeLint.Proofs.Lint.Program
import TreeLint.Proofs.Lint.Agenda

/-!
# A crash stays inside its call

A rule may crash at any point of a call: between two requests, in the
middle of a correction whose transaction is still open, or because the
policy breaks down over a report. Nothing of the call is left in the tree
then (`Undone`), however its transactions were nested, as long as it used
checkpoints of its own. What it reported stays, but counts as not
corrected, and the crash is reported behind the corrections that failed
before it.

The rule is out for the rest of the walk, and the walk goes on for the
others as if the rule were not there: what is still on the agenda is done
without it, and so is everything that comes up (`GoesOnWithout`).
`crashed_call_isolated` puts the two together, for every call of every
walk.

Specification, §4.3 and §7: a rule that fails is rolled back and reported,
and the walk goes on with the others.
-/

open StateTransition (Reaches)

namespace TreeLint

theorem Violation.uncorrectFrom_length (vs ws : List Violation) :
    Violation.uncorrectFrom vs.length (vs ++ ws) =
      vs ++ ws.map Violation.uncorrect := by
  simp [Violation.uncorrectFrom]

variable {σ : Type} {policy : Policy} {phase : Phase} {node : Option NodeId}
  {r : ActiveRule σ} {s after : Scene} {ds : List Deed} {reason : String}

/-! ## The call -/

/-- A call that does its deeds and crashes is taken back. -/
theorem ActiveRule.invoke_of_crash
    (hr : (r.hook phase node).Runs policy r.id
      { s with tree := s.tree.begin } ds after (.crashed reason)) :
    r.invoke policy phase node s = ({ r with failed := true },
      ActiveRule.recover after s.tree.checkpoint s.violations.length r.id phase
        node reason) := by
  simp only [ActiveRule.invoke, hr.run_eq]

/-- A call that does its deeds and ends has its transaction committed. -/
theorem ActiveRule.invoke_of_finish {memory : σ}
    (hr : (r.hook phase node).Runs policy r.id
      { s with tree := s.tree.begin } ds after (.finished memory)) :
    r.invoke policy phase node s = ({ r with
      visitor := { r.visitor with memory } },
      { after with tree := after.tree.commit s.tree.checkpoint }) := by
  simp only [ActiveRule.invoke, hr.run_eq]

/-- What is left of a call of `rule` on `s` that got as far as `after`,
where it crashed: the scene `s'`. -/
structure Undone (rule : RuleId) (phase : Phase) (node : Option NodeId)
    (reason : String) (ds : List Deed) (s after s' : Scene) : Prop where
  nodes : ∀ n, n < s.tree.count → Tree.SameNode s.tree s'.tree n
  journal : s'.tree.journal = s.tree.journal
  /-- The reports of the call are kept, in order; none counts as corrected. -/
  violations : ∃ emitted, after.violations = s.violations ++ emitted ∧
    emitted.map Violation.deed = ds.filter Deed.isReport ∧
      (∀ v ∈ emitted, v.rule = rule) ∧
    s'.violations = s.violations ++ emitted.map Violation.uncorrect
  /-- One failure, behind those of the corrections that the call could not
  carry out. -/
  failures : ∃ corrections,
    (∀ f ∈ corrections, f.rule = rule ∧ f.phase = .autocorrect) ∧
    after.failures = s.failures ++ corrections ∧
    s'.failures = s.failures ++ corrections ++
      [⟨rule, node.elim 0 s'.tree.startOffset, phase, reason⟩]

/-- Rolling back what a program did with checkpoints of its own leaves the
nodes it created behind the others. -/
theorem Hook.Runs.rolled_back {h : Hook σ} {rule : RuleId} {t : Tree}
    {s' : Scene} {e : HookEnd σ} (ht : t.Consistent) (hs : s.tree = t.begin)
    (hr : h.Runs policy rule s ds s' e)
    (hown : ownCheckpoints (Deed.ops ds) t.begin [] = true) :
    ∃ fresh : Forest, fresh.Scattered ∧
      (s'.tree.rollback t.checkpoint).forest = t.forest.append fresh ∧
      (s'.tree.rollback t.checkpoint).journal = t.journal := by
  obtain ⟨fresh, hin, hscat, -⟩ := (Tree.Within.begin ht).run (by simp) hown
  obtain ⟨hforest, hjournal⟩ := hin.rollback ht
  rw [hr.tree_eq, hs]
  exact ⟨fresh, hscat, hforest, hjournal⟩

/-- **A call that crashes is undone** (specification, §4.3), if it goes back
to no checkpoint but its own. -/
theorem ActiveRule.undone_of_crash (ht : s.tree.Consistent)
    (hr : (r.hook phase node).Runs policy r.id
      { s with tree := s.tree.begin } ds after (.crashed reason))
    (hown : ownCheckpoints (Deed.ops ds) s.tree.begin [] = true) :
    Undone r.id phase node reason ds s after
      (r.invoke policy phase node s).2 := by
  -- The relation says three things of the run: what is left of the tree,
  -- which violations it entered and which of its corrections failed.
  obtain ⟨fresh, -, hforest, hjournal⟩ := hr.rolled_back ht rfl hown
  obtain ⟨emitted, hemitted, hrule, hdeeds⟩ := hr.reported
  obtain ⟨corrections, hfailures, hcorrections⟩ := hr.failures_eq
  rw [ActiveRule.invoke_of_crash hr]
  refine ⟨fun n hn => ?_, hjournal, ⟨emitted, hemitted, hdeeds, hrule, ?_⟩,
    ⟨corrections, hcorrections, hfailures, ?_⟩⟩
  · exact Tree.sameNode_of_append hforest (ht.sound.contains_iff.mpr hn)
  · simp only [ActiveRule.recover, hemitted, Violation.uncorrectFrom_length]
  · simp only [ActiveRule.recover, hfailures]

/-! ## The rest of the walk -/

/-- A turn in which the rule crashes is the last it has, and leaves the
other rules alone. -/
theorem Traversal.goesOnWithout_of_crash {w : Walk σ} {i : Nat}
    (places : List Nat) (rest : List Errand) (hr : w.rules[i]? = some r)
    (hf : r.failed = false) (hn : node.all w.tree.isAttached = true)
    (hcrash : (r.invoke policy phase node w.scene).1.failed = true) :
    (w.turn policy ⟨i, phase, node⟩).scene =
        (r.invoke policy phase node w.scene).2 ∧
      (∀ j, j ≠ i →
        (w.turn policy ⟨i, phase, node⟩).rules[j]? = w.rules[j]?) ∧
      Traversal.GoesOnWithout policy places i
        ⟨w.turn policy ⟨i, phase, node⟩, rest⟩ := by
  have hturn := @Walk.turn_of_due σ policy w ⟨i, phase, node⟩ r hr hf hn
  refine ⟨by rw [hturn], fun j hj => Walk.rules_turn_of_ne hj, ?_⟩
  refine Traversal.goesOnWithout_of_failed policy places
    (r := (r.invoke policy phase node w.scene).1) ?_ hcrash
  obtain ⟨hi, -⟩ := List.getElem?_eq_some_iff.mp hr
  rw [hturn, List.getElem?_set_self hi]

/-- **A crash stays inside its call.** Let a rule be called on any tree
that can come about, do anything with checkpoints of its own, and crash.
Then the call is undone.

And let the call be a turn in the middle of a walk, with `rest` on the
agenda behind it. Then the other rules are as they were, the rule is not
called again, and the walk goes on for all others: it ends if the walk of
the others does that starts here and has the rest of the agenda before it,
and both have the same outcome. Specification, §4.3 and §7. -/
theorem crashed_call_isolated (policy : Policy) (r : ActiveRule σ)
    (phase : Phase) (node : Option NodeId) (s after : Scene)
    (ds : List Deed) (reason : String) (ht : s.tree.Reachable)
    (hcrash : (r.hook phase node).Runs policy r.id
      { s with tree := s.tree.begin } ds after (.crashed reason))
    (hown : ownCheckpoints (Deed.ops ds) s.tree.begin [] = true) :
    Undone r.id phase node reason ds s after
        (r.invoke policy phase node s).2 ∧
      ∀ (start w : Walk σ) (i : Nat) (rest : List Errand),
        let places := List.range start.rules.length
        Reaches (Traversal.step? policy places)
          (Traversal.start places start)
          ⟨w, .turn ⟨i, phase, node⟩ :: rest⟩ →
        w.rules[i]? = some r → r.failed = false → w.scene = s →
        node.all s.tree.isAttached = true →
        let next : Traversal σ := ⟨w.turn policy ⟨i, phase, node⟩, rest⟩
        next.walk.scene = (r.invoke policy phase node s).2 ∧
          (∀ j, j ≠ i → next.walk.rules[j]? = w.rules[j]?) ∧
          Traversal.GoesOnWithout policy places i next ∧
          ∀ final, (∃ fuel, Walk.run policy fuel start = some final) ↔
            Reaches (Traversal.step? policy (places.filter (· != i)))
              (next.without i) ⟨final, []⟩ := by
  refine ⟨ActiveRule.undone_of_crash ht.consistent hcrash hown, ?_⟩
  intro start w i rest places hreach hr hf hs hn next
  subst hs
  have hfailed : (r.invoke policy phase node w.scene).1.failed = true := by
    rw [ActiveRule.invoke_of_crash hcrash]
  obtain ⟨hscene, hothers, hgoesOn⟩ :=
    Traversal.goesOnWithout_of_crash places rest hr hf hn hfailed
  refine ⟨hscene, hothers, hgoesOn, fun final => ?_⟩
  have hnext : Reaches (Traversal.step? policy places)
      (Traversal.start places start) next := hreach.tail rfl
  rw [Traversal.run_iff_reaches, ← hgoesOn.ends]
  exact ⟨Traversal.ends_of_reaches hnext, hnext.trans⟩

/-- A rule that minds the first token only. It changes
the token, reports with a correction that fails, and then crashes in the
middle of a second correction, with that correction's transaction and one
of its own still open. -/
def clumsy : ActiveRule Unit where
  id := "clumsy"
  visitor :=
    { memory := ()
      before := fun n _ =>
        if n = 1 then
          .perform .begin fun _ => .perform (.replaceText n "b") fun _ =>
            .emitAndFix 0 "first" (.ofOps () [.detach Tree.root]) fun _ _ =>
              .emitAndFix 0 "second"
                (.perform .begin fun _ => .perform (.detach n) fun _ =>
                  .crash "boom")
                fun _ _ => .finish ()
        else .finish () }

/-- The rule above and one that does nothing, on a file of two tokens. -/
def clumsyAndCalm : Walk Unit where
  rules := [clumsy, { id := "calm", visitor := { memory := () } }]
  scene :=
    { tree := Tree.build .file
        [.token .identifier "a", .token .identifier "c"] }

/-- The rule crashes on the first token. The token is as it was, and the
rest of the walk is a walk of the second rule alone, which is called before
and after everything that is left. -/
theorem crashed_call_isolated_clumsy :
    let t := clumsyAndCalm.tree
    let w := (clumsyAndCalm.turn Policy.all
      ⟨0, .beforeChildren, some 0⟩).turn Policy.all
        ⟨1, .beforeChildren, some 0⟩
    let w' := w.turn Policy.all ⟨0, .beforeChildren, some 1⟩
    Tree.SameNode t w'.tree 1 ∧ w'.tree.journal = t.journal ∧
      w'.scene.violations.length = 2 ∧
      w'.scene.failures.map Failure.phase =
        [.autocorrect, .beforeChildren] ∧
      ∃ final, Walk.run Policy.all 9 clumsyAndCalm = some final ∧
        Reaches (Traversal.step? Policy.all [1])
          ⟨w', [.turn ⟨1, .beforeChildren, some 1⟩, .children 1 {},
            .turn ⟨1, .afterChildren, some 1⟩, .settle 0 1 {} [1, 2],
            .turn ⟨1, .afterChildren, some 0⟩,
            .turn ⟨1, .afterLastNode, none⟩]⟩ ⟨final, []⟩ ∧
        final.calls =
          [⟨"clumsy", .beforeChildren, some 0⟩,
            ⟨"calm", .beforeChildren, some 0⟩,
            ⟨"clumsy", .beforeChildren, some 1⟩,
            ⟨"calm", .beforeChildren, some 1⟩,
            ⟨"calm", .afterChildren, some 1⟩,
            ⟨"calm", .beforeChildren, some 2⟩,
            ⟨"calm", .afterChildren, some 2⟩,
            ⟨"calm", .afterChildren, some 0⟩,
            ⟨"calm", .afterLastNode, none⟩] := by
  intro t w w'
  have h := crashed_call_isolated Policy.all clumsy .beforeChildren
    (some 1) w.scene _ _ "boom"
    ⟨.file, [.token .identifier "a", .token .identifier "c"], [], rfl⟩
    (.perform (.perform (.abandoned rfl (.perform (.finish _ _))
      (.fixCrashed rfl (.perform (.perform (.crash _))))))) (by decide)
  obtain ⟨hundone, hrest⟩ := h
  -- Both rules have had the file, and the call that crashes is due next.
  have hreach : Reaches (Traversal.step? Policy.all [0, 1])
      (Traversal.start [0, 1] clumsyAndCalm)
      ⟨w, .turn ⟨0, .beforeChildren, some 1⟩ :: _⟩ :=
    .head rfl (.head rfl (.single rfl))
  obtain ⟨-, -, -, hends⟩ :=
    hrest clumsyAndCalm w 0 _ hreach rfl rfl rfl (by decide)
  obtain ⟨final, hfinal⟩ : ∃ final,
      Walk.run Policy.all 9 clumsyAndCalm = some final :=
    Option.isSome_iff_exists.mp (by decide)
  have hcalls : (Walk.run Policy.all 9 clumsyAndCalm).map Walk.calls =
      some final.calls := by rw [hfinal, Option.map_some]
  refine ⟨?_, ?_, by decide, by decide, final, hfinal,
    (hends final).mp ⟨9, hfinal⟩, ?_⟩
  · exact hundone.nodes 1 (by decide)
  · exact hundone.journal
  · exact Option.some.inj (hcalls.symm.trans (by decide))

end TreeLint
