import TreeLint.Proofs.Lint.Completion
import TreeLint.Proofs.Rule.Order
import TreeLint.Proofs.Standard.Lists

/-!
# The standard rules come to an end, and do not fail

White space is put in ahead of the walk, and operators are moved into lists
that are still to be visited. Still every visit with the standard rules ends
(`formatting_terminates`): an operator that was moved ahead is visited once
more and then rests, and nothing is done about white space when it is
visited.

No correction fails either, although nodes are remembered while others are
moved and removed. What can fail is the policy: if it breaks down over a
report, that is a failure of the rule that reported
(`broken_policy_fails_rule`), and there are no other failures
(`only_policy_fails`).

Specification, §13 and §14.
-/

namespace TreeLint

namespace Standard

variable {σ : Type}

/-- A rule that acts before the children of a node are visited, and at no
other time. -/
theorem reacts_of_before {memory : σ} {before : NodeId → σ → Hook σ}
    (h : ∀ n memory t, t.Tidy isOperator → n ∈ t.document.ids →
      (before n memory).Sure (Tree.Reaction Resting n t) t) :
    Visitor.Reacts isOperator Resting { memory, before } where
  before := h
  after _ _ _ _ _ := ⟨rfl, Nat.le_refl _⟩
  last _ _ _ := ⟨rfl, Nat.le_refl _⟩

/-- The standard rules can always be made and bound, and react as they may.
-/
theorem reliable_providers [Inhabited σ] :
    ∀ p ∈ providers (σ := σ), p.Reliable fun v =>
      v.Reacts isOperator Resting := by
  simp only [providers, List.forall_mem_cons, List.not_mem_nil, false_implies,
    implies_true, and_true]
  refine ⟨Provider.reliable_ofVisitor fun view => ?_,
    Provider.reliable_ofVisitor fun view => ?_,
    Provider.reliable_ofVisitor fun view => ?_⟩
  · exact reacts_of_before fun n memory t ht hn =>
      BlankLine.sure_before ht hn memory
  · exact reacts_of_before fun n memory t ht hn =>
      ChainWrapping.sure_before ht hn _ memory
  · exact reacts_of_before fun n memory t ht hn =>
      ParameterSpacing.sure_before ht hn _ memory

/-- None of them asks for a place in the order (specification, §13). -/
theorem modifiers_providers [Inhabited σ] :
    ∀ p ∈ providers (σ := σ), p.modifiers = [] := by
  simp only [providers, List.forall_mem_cons, List.not_mem_nil, false_implies,
    implies_true, and_true]
  exact ⟨rfl, rfl, rfl⟩

/-- Some of the standard rules, under any settings: it is clear which of
them run. -/
theorem exists_prepared [Inhabited σ] {ps : List (Provider σ)}
    (hps : ∀ p ∈ ps, p ∈ providers) {w : Session σ}
    (hreg : Registry.ofProviders w.engine.registry.id ps =
      .ok w.engine.registry)
    (hcache : w.engine.cache.Faithful w.engine.registry)
    (ht : w.tree.Tidy isOperator) (s : Settings) :
    ∃ start running, Session.Prepared isOperator Resting Corrects s w start
      running := by
  have hwishes : ∀ i ∈ w.engine.registry.infos, i.modifiers = [] := by
    intro i hi
    obtain ⟨entry, hentry, rfl⟩ := List.mem_map.mp hi
    exact modifiers_providers _
      (hps _ (Registry.mem_of_ofProviders hreg (List.mem_map_of_mem hentry)))
  obtain ⟨order, hsort⟩ :=
    sort_of_no_wishes (Registry.tabled_of_ofProviders hreg).nodup_infos hwishes
    (w.engine.registry.disabled s)
  have hresult := (hcache.resolve s false).2.trans hsort
  have horder : (w.order s false).2 =
      .ok (order.filterMap fun i => w.engine.registry.find? i.id) := by
    simp only [Session.order, Engine.order, hresult, Except.map,
      Except.mapError]
  refine ⟨(w.order s false).1, _, Prod.ext rfl horder, fun p hp => ?_, ht⟩
  obtain ⟨id, hfind⟩ := Session.find?_of_order horder p hp
  have hmem := hps p (Registry.mem_of_find? hreg hfind)
  exact (reliable_providers p hmem).and_correctsBy (correctsBy_providers p hmem)

end Standard

/-- **Formatting with the standard rules comes to an end.** Take a file in
which white space, comments and the operators that are moved are tokens, any
of the standard rules, any settings and any policy. Formatting ends with a
result, which is the same for all fuel from some amount on. However many
visits there were, the rules of the next one can be made and its walk ends,
with the calls it has then made. It visits every composite node that the
file has when it begins once, and no node more than twice. Specification,
§14. -/
theorem formatting_terminates {σ : Type} [Inhabited σ] (ps : List (Provider σ))
    (hps : ∀ p ∈ ps, p ∈ Standard.providers) (w : Session σ)
    (hreg : Registry.ofProviders w.engine.registry.id ps =
      .ok w.engine.registry)
    (hcache : w.engine.cache.Faithful w.engine.registry) (ht : w.tree.Reachable)
    (hfile : w.tree.hasKind Tree.root .file = true)
    (ha : w.tree.document.Atomic fun k => k.isTrivia || Standard.isOperator k)
    (policy : Policy) (s : Settings) :
    (∃ w' f enough, ∀ fuel, enough ≤ fuel →
      w.format fuel policy s = some (w', .ok f)) ∧
      ∃ start running, w.order s false = (start, .ok running) ∧
        ∀ v, Relation.ReflTransGen (Session.Passed policy s running) start v →
          ∃ roster final seen, (v.assemble s running).2 = .ok roster ∧
            (∃ enough, ∀ fuel, enough ≤ fuel →
              Walk.run policy fuel (roster.start v.asked v.tree) =
                some (final.finish policy)) ∧
            Walk.Ends policy Tree.root (roster.start v.asked v.tree)
              final seen ∧
            (∀ n ∈ v.tree.document.ids, v.tree.isLeaf n = false →
              seen.count n = 1) ∧ ∀ n, seen.count n ≤ 2 := by
  obtain ⟨start, running, h⟩ :=
    Standard.exists_prepared hps hreg hcache ⟨ht.consistent, hfile, ha⟩ s
  obtain ⟨w', f, enough, hformat, -⟩ := h.format_ends policy
  refine ⟨⟨w', f, enough, hformat⟩, start, running, h.order, fun v hv => ?_⟩
  obtain ⟨roster, hroster, horderly⟩ := h.reacting.exists_roster s v.engine.made
  have hwalk : (roster.start v.asked v.tree).Orderly policy Standard.isOperator
      Standard.Resting Standard.Corrects :=
    horderly.start (h.tidy_of_passed hv) v.asked
  obtain ⟨final, seen, hends, -, -, honce, htwice⟩ := hwalk.ends
  refine ⟨roster, final, seen, ?_, hends.run, hends, honce, htwice⟩
  simp only [Session.assemble, hroster, Except.mapError]

/-- In the file `a.⏎b` with the line break and `b` in a node of their own,
the dot is moved into that node and visited there once more. -/
theorem formatting_terminates_dot_visited_twice :
    let t := Tree.build .file
      [.token .identifier "a", .token .dot ".", .start .callExpr,
        .token .whitespace "\n", .token .identifier "b",
        .finish]
    let w := Session.standard t
    t.hasKind 2 .dot = true ∧
      ((w.order {} false).2.toOption.bind fun running =>
        (w.assemble {} running).2.toOption.bind fun roster =>
          (Walk.trail Policy.all 20 Tree.root (roster.start w.asked t)).map
            Prod.snd) = some [0, 1, 2, 3, 4, 2, 5] ∧
      (∃ w' f enough, ∀ fuel, enough ≤ fuel → w.format fuel Policy.all {} =
        some (w', .ok f)) ∧
      ∃ start running, w.order {} false = (start, .ok running) ∧
        ∃ roster final seen, (start.assemble {} running).2 = .ok roster ∧
          (∃ enough, ∀ fuel, enough ≤ fuel →
            Walk.run Policy.all fuel (roster.start start.asked start.tree) =
              some (final.finish Policy.all)) ∧
          Walk.Ends Policy.all Tree.root (roster.start start.asked start.tree)
            final seen ∧
          (∀ n ∈ start.tree.document.ids, start.tree.isLeaf n = false →
            seen.count n = 1) ∧
          ∀ n, seen.count n ≤ 2 := by
  intro t w
  have hreach : t.Reachable := ⟨_, _, [], rfl⟩
  obtain ⟨hformat, start, running, horder, hvisits⟩ :=
    formatting_terminates Standard.providers (fun _ hp => hp) w
    (Session.ofProviders_standard t) (OrderCache.faithful_empty _) hreach
      (by decide +kernel) (by decide +kernel)
    Policy.all {}
  exact ⟨by decide +kernel, by decide +kernel, hformat, start, running, horder,
    hvisits start .refl⟩

/-- In the file `a.⏎b`, where the dot ought to be moved, and a policy that
breaks down when it is asked. -/
theorem broken_policy_fails_rule :
    let t := Tree.build .file
      [.token .identifier "a", .token .dot ".", .token .whitespace "\n",
        .token .identifier "b"]
    t.hasKind Tree.root .file = true ∧
      (t.document.Atomic fun k => k.isTrivia || Standard.isOperator k) ∧
      ((Session.standard t).format 20 (Policy.broken "policy failed") {}).bind
        (fun p => p.2.toOption) =
        some { violations := []
               failures :=
                 [⟨"standard:chain-wrapping", 1, .beforeChildren,
                   "policy failed"⟩]
               text := none
               passes := 1 } := by
  decide +kernel

/-- **Nothing fails but the policy.** Take a file in which white space,
comments and the operators that are moved are tokens, any of the standard
rules and any settings. The rules can be made, and are sure of their
corrections whatever the file has become. Linting gives a result without
failures. So does formatting, except for failures with which the policy
broke down over a report of the rule: there are none if it always has an
answer. Specification, §7 and §13. -/
theorem only_policy_fails {σ : Type} [Inhabited σ] (ps : List (Provider σ))
    (hps : ∀ p ∈ ps, p ∈ Standard.providers) (w : Session σ)
    (hreg : Registry.ofProviders w.engine.registry.id ps =
      .ok w.engine.registry)
    (hcache : w.engine.cache.Faithful w.engine.registry) (ht : w.tree.Reachable)
    (hfile : w.tree.hasKind Tree.root .file = true)
    (ha : w.tree.document.Atomic fun k => k.isTrivia || Standard.isOperator k)
    (s : Settings) :
    (∀ p ∈ ps, p.Reliable fun v =>
      v.Reacts Standard.isOperator Standard.Resting) ∧
      (∃ w' o enough, (∀ fuel, enough ≤ fuel →
        w.lint fuel s = some (w', .ok o)) ∧ o.failures = []) ∧
      ∀ policy : Policy, ∃ w' f enough,
        (∀ fuel, enough ≤ fuel → w.format fuel policy s = some (w', .ok f)) ∧
        (∀ failure ∈ f.failures, failure.BlamedOn policy) ∧
        ((∀ asked rule offset, ∃ allowed, policy asked rule offset =
          .answer allowed) → f.failures = []) := by
  obtain ⟨start, running, h⟩ :=
    Standard.exists_prepared hps hreg hcache ⟨ht.consistent, hfile, ha⟩ s
  refine ⟨fun p hp => Standard.reliable_providers p (hps p hp), h.lint_ends,
    fun policy => ?_⟩
  obtain ⟨w', f, enough, hformat, hblamed⟩ := h.format_ends policy
  refine ⟨w', f, enough, hformat, hblamed, fun hanswers =>
    List.eq_nil_iff_forall_not_mem.mpr fun failure hf => ?_⟩
  obtain ⟨asked, offset, hcrash⟩ := hblamed failure hf
  obtain ⟨allowed, hanswer⟩ := hanswers asked failure.rule offset
  cases hanswer.symm.trans hcrash

/-- In the same file, if everything may be corrected. -/
theorem only_policy_fails_dot_moved :
    let t := Tree.build .file
      [.token .identifier "a", .token .dot ".", .token .whitespace "\n",
        .token .identifier "b"]
    let w := Session.standard t
    (∃ w' o enough, (∀ fuel, enough ≤ fuel →
      w.lint fuel {} = some (w', .ok o)) ∧ o.failures = []) ∧
      ∃ w' f enough, (∀ fuel, enough ≤ fuel → w.format fuel Policy.all {} =
          some (w', .ok f)) ∧ f.failures = [] := by
  intro t w
  have hreach : t.Reachable := ⟨_, _, [], rfl⟩
  obtain ⟨-, hlint, hformat⟩ :=
    only_policy_fails Standard.providers (fun _ hp => hp) w
    (Session.ofProviders_standard t) (OrderCache.faithful_empty _) hreach
      (by decide +kernel) (by decide +kernel) {}
  obtain ⟨w', f, enough, hends, -, hnone⟩ := hformat Policy.all
  exact ⟨hlint, w', f, enough, hends, hnone fun _ _ _ => ⟨true, rfl⟩⟩

end TreeLint
