import TreeLint.Proofs.Lint.Ledger
import TreeLint.Proofs.Lint.Upkeep

/-!
# The corrected flag tells the truth

A violation is entered as corrected before its correction is tried, and the
flag is taken back if the correction fails, or if the call crashes, be it
much later and for another reason. `flags_tell_the_truth` says what a reader
of the violations of a visit may conclude from a flag: it is set for exactly
those reports whose correction was allowed and succeeded in a call that did
not crash. Of the others nothing is left in the tree. A correction that
failed is among the failures, once; one that was not allowed was not tried.

Specification, §4.3: a violation is marked as corrected if the policy allows
the correction, and loses the mark if its call crashes.
-/

namespace TreeLint

variable {σ : Type} {policy : Policy}

/-- The violation `v` of the report `e` says truly what became of it. -/
structure Truthful (policy : Policy) (e : Entry σ) (v : Violation) : Prop where
  report : v.rule = e.rule ∧ v.offset = e.offset ∧ v.message = e.message ∧
    v.fixable = e.offer.fixable
  /-- With a correction: it was allowed and succeeded, and the call did not
  crash. -/
  byFix : ∀ fix, e.offer = .fix fix →
    (v.corrected = true ↔ e.verdict policy = .answer true ∧
      (∃ memory, (fix.run e.before.tree.begin).2 = .finished memory none) ∧
        e.crashed = false)
  /-- On the word of the rule: it can correct the violation and was told to,
  and the call did not crash. -/
  byWord : ∀ fixable, e.offer = .word fixable →
    (v.corrected = true ↔ e.verdict policy = .answer true ∧ fixable = true ∧
      e.crashed = false)
  /-- A correction that was not allowed left no trace. -/
  denied : ∀ fix, e.offer = .fix fix → e.verdict policy = .answer false →
    e.after.tree = e.before.tree ∧ e.after.failures = e.before.failures
  /-- A correction that failed is reported, and the nodes there were are as
  they were. -/
  failed : ∀ fix memory error, e.offer = .fix fix →
    e.verdict policy = .answer true →
    (fix.run e.before.tree.begin).2 = .finished memory (some error) →
    e.after.failures = e.before.failures ++
      [⟨e.rule, e.offset, .autocorrect, error.message⟩] ∧
      (fix.KeepsToItself e.before.tree →
        ∀ n, n < e.before.tree.count →
          Tree.SameNode e.before.tree e.after.tree n)

/-! ## One entry -/

namespace Emission

variable {m : Emission σ} {fix : Fix σ} {memory : σ} {error : EditError}

/-- A report with a correction counts as corrected if that is allowed and
does not end with an error. -/
theorem counts_fix_iff (hoffer : m.offer = .fix fix) : m.counts policy = true ↔
    m.verdict policy = .answer true ∧
      ((∃ memory, (fix.run m.before.tree.begin).2 = .finished memory none) ∨
        m.Breaks policy) := by
  simp only [counts, hoffer, Offer.fixable, Bool.and_true, Bool.and_eq_true,
    decide_eq_true_eq,
    Option.isNone_iff_eq_none, and_congr_right_iff]
  intro hallow
  simp only [error?, Breaks, hallow, hoffer, Offer.fix.injEq]
  cases hend : (fix.run m.before.tree.begin).2 with
  | finished memory failure => simp [hend]
  | crashed reason => simp [hend]

/-- A report without a correction of its own counts as corrected if the
policy allows it and it is said to be correctable (specification, §4.3). -/
theorem counts_word_iff {fixable : Bool} (hoffer : m.offer = .word fixable) :
    m.counts policy = true ↔ m.verdict policy = .answer true ∧
      fixable = true := by
  have hnone : m.error? policy = none := by
    unfold error?
    split
    · next hfix => exact absurd (hoffer.symm.trans hfix) (by simp)
    · rfl
  simp [counts, hoffer, Offer.fixable, hnone]

/-- A correction that failed is taken back as far as the nodes are concerned
that were there. -/
theorem sameNode_of_error (hm : m.Settled policy)
    (ht : m.before.tree.Consistent) (hoffer : m.offer = .fix fix)
    (hallow : m.verdict policy = .answer true)
    (hfix : (fix.run m.before.tree.begin).2 = .finished memory (some error))
    (hown : fix.KeepsToItself m.before.tree) {n : NodeId}
    (hn : n < m.before.tree.count) :
    Tree.SameNode m.before.tree m.after.tree n := by
  obtain ⟨ops, hr⟩ := fix.exists_runs m.before.tree.begin
  obtain ⟨fresh, hin, -, -⟩ :=
    (Tree.Within.begin ht).run (by simp) (hown _ _ _ hr)
  rw [← hr.tree_eq] at hin
  obtain ⟨hforest, -⟩ := hin.rollback ht
  rw [hm.abandoned fix memory error hoffer hallow hfix]
  exact Tree.sameNode_of_append hforest (ht.sound.contains_iff.mpr hn)

end Emission

/-- A correction that is not allowed has no influence at all: any other in
its place would do. -/
theorem Hook.run_of_denied {rule : RuleId} {s : Scene} {offset : Nat}
    (hdeny : policy s.asked rule offset = .answer false) (message : String)
    (fix fix' : Fix σ) (k : Decision → Option σ → Hook σ) :
    (Hook.emitAndFix offset message fix k).run policy rule s =
      (Hook.emitAndFix offset message fix' k).run policy rule s := by
  simp only [Hook.run, Hook.report_of_answer hdeny]
  rfl

/-- What the ledger says of an entry, the violation of the entry says truly. -/
theorem Booked.truthful {s s' : Scene} {es : List (Entry σ)}
    (h : Booked policy s s' es) (hs : s.InOrder) {e : Entry σ} (he : e ∈ es) :
    Truthful policy e (e.violation policy) where
  report := ⟨rfl, rfl, rfl, rfl⟩
  byFix fix hoffer := by
    -- a correction that crashed still counts when it has been dealt with;
    -- only the end of the call takes that back
    have hcrashed := h.crashed e he
    simp only [Entry.violation, Bool.and_eq_true, Bool.not_eq_true',
      Emission.counts_fix_iff hoffer]
    constructor
    · rintro ⟨⟨hallow, hdone | hbreaks⟩, hcalm⟩
      · exact ⟨hallow, hdone, hcalm⟩
      · exact absurd (hcrashed hbreaks) (by simp [hcalm])
    · rintro ⟨hallow, hdone, hcalm⟩
      exact ⟨⟨hallow, Or.inl hdone⟩, hcalm⟩
  byWord fixable hoffer := by
    simp only [Entry.violation, Bool.and_eq_true, Bool.not_eq_true',
      Emission.counts_word_iff hoffer, and_assoc]
  denied fix hoffer hdeny := by
    refine ⟨(h.settled e he).denied fix hoffer hdeny, ?_⟩
    rw [(h.settled e he).failures]
    simp [Emission.failure?, Emission.error?, hdeny]
  failed fix memory error hoffer hallow hfix := by
    refine ⟨?_, fun hown n hn => ?_⟩
    · rw [(h.settled e he).failures]
      simp [Emission.failure?, Emission.error?, hallow, hoffer, hfix]
    · exact Emission.sameNode_of_error (h.settled e he)
        ((h.inOrder hs).2 e he).tree hoffer hallow hfix hown hn

/-! ## All entries of a visit -/

/-- **The corrected flag tells the truth.** Let a file that can come about
be visited with any rules under any policy, one that looks at the rule and
the offset only or one that looks at what it was asked before. Then the
visit has a ledger of all reports, in the order in which the policy was
asked about them. The violations of the visit are those of the ledger, each
of them truthful, sorted by offset and otherwise in the order of the ledger.
The failures of corrections are those of the entries whose correction was
allowed and ended with an error, one for each. A correction that is not
allowed is not run. Specification, §4.3. -/
theorem flags_tell_the_truth (policy : Policy) (roster : Roster σ) (t : Tree)
    (ht : t.Reachable) (fuel : Nat) (asked : List Asked) (v : Visited)
    (hv : roster.visit fuel policy asked t = some v) :
    (∃ es found failures, roster.HasLedger policy asked t v es ∧
      v.asked = asked ++ es.map (fun e => e.question policy) ∧
        List.Forall₂ (Truthful policy) es found ∧
      Violation.StablySorted found v.outcome.violations ∧
        v.outcome.failures = roster.failures ++ failures ∧
      failures.filter Failure.isOfCorrection = es.filterMap fun e =>
        e.failure? policy) ∧
    ∀ rule (s : Scene) offset message (fix fix' : Fix σ) k,
      policy s.asked rule offset = .answer false →
      (Hook.emitAndFix offset message fix k).run policy rule s =
        (Hook.emitAndFix offset message fix' k).run policy rule s := by
  refine ⟨?_, fun rule s offset message fix fix' k hdeny =>
    Hook.run_of_denied hdeny message fix fix' k⟩
  obtain ⟨es, scene, hledger, hbooked, hasked, hsorted, hfailures⟩ :=
    Roster.exists_ledger hv
  have hstart : (roster.start asked t).scene.InOrder :=
    ⟨ht.consistent, LineMemo.knows_empty t⟩
  refine ⟨es, scene.violations, scene.failures, hledger,
    hasked.trans hbooked.asked, ?_, hsorted, hfailures,
    hbooked.corrections⟩
  rw [hbooked.violations]
  exact List.forall₂_map_right_iff.mpr (List.forall₂_same.mpr fun e he =>
    hbooked.truthful hstart he)

/-- A rule that reports the first token twice, with a correction that
succeeds and with one that fails. -/
def halfHearted : ActiveRule Unit where
  id := "half"
  visitor :=
    { memory := ()
      before := fun n _ =>
        if n = 1 then
          .emitAndFix 0 "first" (.ofOps () [.replaceText n "b"]) fun _ _ =>
            .emitAndFix 0 "second" (.ofOps () [.detach Tree.root])
              fun _ _ => .finish ()
        else .finish () }

/-- The rule above on a file of one token. -/
theorem flags_tell_the_truth_half_hearted :
    let t := Tree.build .file [.token .identifier "a"]
    let roster : Roster Unit := { rules := [halfHearted] }
    ∃ v, roster.visit 9 Policy.all [] t = some v ∧
      v.outcome.failures.map Failure.phase = [.autocorrect] ∧
      ∃ es found, roster.HasLedger Policy.all [] t v es ∧
        List.Forall₂ (Truthful Policy.all) es found ∧
        Violation.StablySorted found v.outcome.violations := by
  intro t roster
  have hends : (roster.visit 9 Policy.all [] t).map
      (fun v => v.outcome.failures.map Failure.phase) =
      some [.autocorrect] := by decide +kernel
  obtain ⟨v, hv, hphases⟩ := Option.map_eq_some_iff.mp hends
  obtain ⟨⟨es, found, -, hledger, -, htruthful, hsorted, -⟩, -⟩ :=
    flags_tell_the_truth Policy.all roster t ⟨.file, [.token .identifier "a"],
      [], rfl⟩ 9 [] v hv
  exact ⟨v, hv, hphases, es, found, hledger, htruthful, hsorted⟩

end TreeLint
