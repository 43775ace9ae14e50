import TreeLint.Proofs.Lint.Ending
import TreeLint.Proofs.Lint.Ledger
import TreeLint.Proofs.Lint.Registration
import Mathlib.Logic.Relation

/-!
# Linting and formatting come to an end

Take rules that can always be made and that react as they may once they are
(`Provider.Reliable`). A visit with them ends, and leaves a file as tidy as
it found it, so that the next visit ends as well. So linting and formatting
end with a result (`Session.Prepared.lint_ends`,
`Session.Prepared.format_ends`), and what is in its list of failures is a
breakdown of the policy.

Results are given for all fuel from some amount on: there is one result, and
more fuel does not change it.

Specification, §14: three visits at most, but each of them has to end.
-/

namespace TreeLint

variable {σ : Type} {policy : Policy} {atoms : Kind → Bool}
  {rests : Forest → NodeId → Prop} {Good : Tree → String → Fix σ → Prop}

/-! ## Making rules -/

/-- A rule that can always be made and bound, and gives a visitor of some
sort. -/
def Provider.Reliable (P : Visitor σ → Prop) (p : Provider σ) : Prop :=
  ∀ number, ∃ inst, p.create number = .made inst ∧
    ∀ view, ∃ visitor, (inst.bind view).visitor = .ok visitor ∧ P visitor

/-- A provider that only hands out a visitor is made and bound every time,
so it is reliable if its visitors are as they should be. -/
theorem Provider.reliable_ofVisitor {P : Visitor σ → Prop} {info : RuleInfo}
    {visitor : SettingsView → Visitor σ} (h : ∀ view, P (visitor view)) :
    (Provider.ofVisitor info visitor).Reliable P :=
  fun _ => ⟨_, rfl, fun view => ⟨_, rfl, h view⟩⟩

theorem Provider.Reliable.and_correctsBy {P : Visitor σ → Prop} {p : Provider σ}
    (h : p.Reliable P) (hp : p.CorrectsBy Good) :
    p.Reliable fun v => P v ∧ v.CorrectsBy Good := by
  intro number
  obtain ⟨inst, hmade, hbind⟩ := h number
  refine ⟨inst, hmade, fun view => ?_⟩
  obtain ⟨visitor, hbound, hvisitor⟩ := hbind view
  exact ⟨visitor, hbound, hvisitor, hp number inst view visitor hmade hbound⟩

/-- All reliable rules get on the roster, and nothing fails. -/
theorem Assembly.exists_roster {P : Visitor σ → Prop} {s : Settings}
    {ps : List (Provider σ)} (hps : ∀ p ∈ ps, p.Reliable P) {roster : Roster σ}
    (hroster : ∀ r ∈ roster.rules, P r.visitor) (made : MadeCounts)
    (notes : List Note) (fragile : Bool) :
    ∃ final, (Assembly.build s ps roster made notes fragile).roster =
      .ok final ∧
      final.failures = roster.failures ∧ ∀ r ∈ final.rules, P r.visitor := by
  induction ps generalizing roster made notes fragile with
  | nil => exact ⟨roster, rfl, rfl, hroster⟩
  | cons p ps ih =>
    obtain ⟨hp, hps⟩ := List.forall_mem_cons.mp hps
    obtain ⟨inst, hmade, hbind⟩ := hp ((NameMap.find? p.id made).getD 0)
    obtain ⟨visitor, hbound, hvisitor⟩ := hbind (s.view p.id p.keys)
    let next : Roster σ := { roster with
      rules := roster.rules ++ [{ id := p.id, visitor }] }
    have hnext : ∀ r ∈ next.rules, P r.visitor := by
      intro r hr
      rcases List.mem_append.mp hr with hr | hr
      · exact hroster r hr
      · rw [List.mem_singleton.mp hr]
        exact hvisitor
    simp only [Assembly.build, hmade, hbound]
    exact ih hps hnext _ _ _

/-! ## Visits -/

/-- What a walk keeps in order holds whenever it has ended. -/
theorem Walk.Orderly.run {w w' : Walk σ} {fuel : Nat}
    (h : w.Orderly policy atoms rests Good)
    (hrun : Walk.run policy fuel w = some w') :
    w'.Orderly policy atoms rests Good := by
  obtain ⟨occasions, rfl⟩ := run_eq_turns hrun
  exact turns_induction (P := Orderly policy atoms rests Good) (fun _ τ hw =>
    (hw.turn τ).1) h _

namespace Roster

variable {roster : Roster σ} {t : Tree} {asked : List Asked}

/-- The rules of a roster are sure of what they do, and nothing has failed. -/
structure Orderly (atoms : Kind → Bool) (rests : Forest → NodeId → Prop)
    (Good : Tree → String → Fix σ → Prop) (r : Roster σ) : Prop where
  rules : ∀ rule ∈ r.rules, rule.visitor.Reacts atoms rests ∧
    rule.visitor.CorrectsBy Good
  failures : r.failures = []

theorem Orderly.start (h : roster.Orderly atoms rests Good) (ht : t.Tidy atoms)
    (asked : List Asked) :
    (roster.start asked t).Orderly policy atoms rests Good where
  tidy := ht
  rules := h.rules
  failures _ hf := nomatch hf

/-- Whatever a visit leaves is tidy, and only the policy can have failed. -/
theorem Orderly.visit (h : roster.Orderly atoms rests Good) (ht : t.Tidy atoms)
    {fuel : Nat} {v : Visited}
    (hv : roster.visit fuel policy asked t = some v) :
    v.tree.Tidy atoms ∧ ∀ f ∈ v.outcome.failures, f.BlamedOn policy := by
  unfold Roster.visit at hv
  split at hv
  · cases hv
    refine ⟨ht, fun f hf => ?_⟩
    rw [h.failures] at hf
    cases hf
  · obtain ⟨w, hw, rfl⟩ := Option.map_eq_some_iff.mp hv
    have hlast := (h.start ht asked).run hw
    refine ⟨hlast.tidy, fun f hf => hlast.failures f ?_⟩
    rwa [h.failures, List.nil_append] at hf

/-- A visit ends. -/
theorem Orderly.visit_ends (h : roster.Orderly atoms rests Good)
    (ht : t.Tidy atoms) (policy : Policy) (asked : List Asked) :
    ∃ v enough, ∀ fuel, enough ≤ fuel → roster.visit fuel policy asked t =
      some v := by
  unfold Roster.visit
  split
  · exact ⟨_, 0, fun _ _ => rfl⟩
  · have hwalk : (roster.start asked t).Orderly policy atoms rests Good :=
      h.start ht asked
    obtain ⟨w', seen, hends, -⟩ := hwalk.ends
    obtain ⟨enough, hrun⟩ := hends.run
    exact ⟨_, enough, fun fuel hfuel =>
      congrArg (Option.map _) (hrun fuel hfuel)⟩

end Roster

/-! ## Sessions -/

/-- Failures are collected and none are made up. -/
theorem Tally.mem_addFailures {f : Failure} {known new : List Failure}
    (h : f ∈ addFailures known new) :
    f ∈ known ∨ f ∈ new := by
  induction new generalizing known with
  | nil => exact Or.inl h
  | cons g new ih =>
    rcases ih h with hmem | hmem
    · dsimp only at hmem
      split at hmem
      · exact Or.inl hmem
      · rcases List.mem_append.mp hmem with hmem | hmem
        · exact Or.inl hmem
        · exact Or.inr (List.mem_singleton.mp hmem ▸ List.mem_cons_self)
    · exact Or.inr (List.mem_cons_of_mem _ hmem)

namespace Session

variable {w w' : Session σ} {s : Settings} {providers : List (Provider σ)}

/-- Reliable rules that react as they may. -/
def Reacting (atoms : Kind → Bool) (rests : Forest → NodeId → Prop)
    (Good : Tree → String → Fix σ → Prop)
    (providers : List (Provider σ)) : Prop :=
  ∀ p ∈ providers, p.Reliable fun v => v.Reacts atoms rests ∧ v.CorrectsBy Good

/-- Rules that can be made and bound are made and bound. -/
theorem Reacting.exists_roster (h : Reacting atoms rests Good providers)
    (s : Settings) (made : MadeCounts) :
    ∃ roster, (Assembly.build s providers {} made [] false).roster =
      .ok roster ∧ roster.Orderly atoms rests Good := by
  have hnobody : ∀ r ∈ ({} : Roster σ).rules, r.visitor.Reacts atoms rests ∧
      r.visitor.CorrectsBy Good :=
    fun r hr => nomatch hr
  obtain ⟨roster, hroster, hfailures, hrules⟩ :=
    Assembly.exists_roster (s := s) h hnobody made [] false
  exact ⟨roster, hroster, hrules, hfailures⟩

/-- What a visit of the file leaves. -/
theorem Reacting.pass (h : Reacting atoms rests Good providers)
    (ht : w.tree.Tidy atoms) {fuel : Nat} {o : Outcome}
    (hpass : w.pass fuel policy s providers = some (w', .ok o)) :
    w'.tree.Tidy atoms ∧ ∀ f ∈ o.failures, f.BlamedOn policy := by
  obtain ⟨roster, hroster, horderly⟩ := h.exists_roster s w.engine.made
  rcases pass_cases hpass with ⟨⟨e, he⟩, -⟩ | ⟨roster', v, hroster',
    hv, htree, ho⟩
  · cases he
  · obtain rfl : roster = roster' := Except.ok.inj (hroster.symm.trans hroster')
    cases ho
    rw [htree]
    exact horderly.visit ht hv

/-- **One visit ends with a result,** for all fuel that is large enough. -/
theorem Reacting.pass_ends (h : Reacting atoms rests Good providers)
    (ht : w.tree.Tidy atoms) (policy : Policy) (s : Settings) :
    ∃ w' o enough, ∀ fuel, enough ≤ fuel → w.pass fuel policy s providers =
      some (w', .ok o) := by
  obtain ⟨roster, hroster, horderly⟩ := h.exists_roster s w.engine.made
  obtain ⟨v, enough, hv⟩ := horderly.visit_ends ht policy w.asked
  refine ⟨{ (w.assemble s providers).1 with
    tree := v.tree, asked := v.asked, notes :=
      (w.assemble s providers).1.notes ++ v.notes }, v.outcome, enough, ?_⟩
  intro fuel hfuel
  simp only [Session.pass, assemble, hroster, Except.mapError, visit,
    hv fuel hfuel, Option.map_some]

/-- Any number of visits, by induction on the number: each begins with the
tidy file that the one before it left. -/
theorem Reacting.passes_end (h : Reacting atoms rests Good providers)
    (ht : w.tree.Tidy atoms) (policy : Policy) (s : Settings) (left : Nat)
    {tally : Tally} (htally : ∀ f ∈ tally.failures, f.BlamedOn policy) :
    ∃ w' final enough, (∀ fuel, enough ≤ fuel →
      w.passes fuel policy s providers left tally = some (w', .ok final)) ∧
      ∀ f ∈ final.failures, f.BlamedOn policy := by
  induction left generalizing w tally with
  | zero => exact ⟨w, tally, 0, fun _ _ => rfl, htally⟩
  | succ left ih =>
    obtain ⟨v, o, enough, hpass⟩ := h.pass_ends ht policy s
    obtain ⟨hv, ho⟩ := h.pass ht (hpass enough (Nat.le_refl _))
    have hadd : ∀ f ∈ (tally.add o).failures, f.BlamedOn policy := by
      intro f hf
      rcases Tally.mem_addFailures hf with hf | hf
      · exact htally f hf
      · exact ho f hf
    by_cases hcorrected : o.violations.any (·.corrected) = true
    · obtain ⟨w', final, enough', hrest, hfinal⟩ := ih hv hadd
      refine ⟨w', final, max enough enough', fun fuel hfuel => ?_, hfinal⟩
      simp only [passes, hpass fuel (Nat.le_trans (Nat.le_max_left _ _) hfuel),
        hcorrected, if_true]
      exact hrest fuel (Nat.le_trans (Nat.le_max_right _ _) hfuel)
    · refine ⟨v, tally.add o, enough, fun fuel hfuel => ?_, hadd⟩
      simp only [passes, hpass fuel hfuel, hcorrected, if_false,
        Bool.false_eq_true]

/-- The rules that run are known before the first visit, and they react as
they may. -/
structure Prepared (atoms : Kind → Bool) (rests : Forest → NodeId → Prop)
    (Good : Tree → String → Fix σ → Prop) (s : Settings) (w start : Session σ)
    (providers : List (Provider σ)) : Prop where
  order : w.order s false = (start, .ok providers)
  reacting : Reacting atoms rests Good providers
  tidy : start.tree.Tidy atoms

variable {start : Session σ}

/-- **Formatting ends with a result,** for all fuel that is large enough,
and every failure in it is a crash of the policy. -/
theorem Prepared.format_ends (h : Prepared atoms rests Good s w start providers)
    (policy : Policy) :
    ∃ w' f enough, (∀ fuel, enough ≤ fuel →
      w.format fuel policy s = some (w', .ok f)) ∧
      ∀ failure ∈ f.failures, failure.BlamedOn policy := by
  have hnone : ∀ failure ∈ ({} : Tally).failures, failure.BlamedOn policy :=
    fun _ hf => nomatch hf
  obtain ⟨w', tally, enough, hpasses, hblamed⟩ :=
    h.reacting.passes_end h.tidy policy s maxPasses hnone
  refine ⟨w', tally.formatted w'.tree, enough, fun fuel hfuel => ?_, hblamed⟩
  simp only [format, h.order, hpasses fuel hfuel, Option.map_some, Except.map]

/-- Nothing fails when nothing may be corrected: that policy does not break
down. -/
theorem Prepared.lint_ends (h : Prepared atoms rests Good s w start providers) :
    ∃ w' o enough, (∀ fuel, enough ≤ fuel → w.lint fuel s = some (w', .ok o)) ∧
      o.failures = [] := by
  obtain ⟨w', o, enough, hpass⟩ := h.reacting.pass_ends h.tidy Policy.none s
  refine ⟨w', o, enough, fun fuel hfuel => ?_,
    List.eq_nil_iff_forall_not_mem.mpr fun f hf => ?_⟩
  · simp only [lint, h.order, hpass fuel hfuel]
  · obtain ⟨asked, offset, hcrash⟩ :=
      (h.reacting.pass h.tidy (hpass enough (Nat.le_refl _))).2 f hf
    cases hcrash

/-- A visit takes one session to the next. -/
def Passed (policy : Policy) (s : Settings) (providers : List (Provider σ))
    (w w' : Session σ) : Prop :=
  ∃ fuel o, w.pass fuel policy s providers = some (w', .ok o)

/-- However many visits there were, the next one finds a tidy file. -/
theorem Prepared.tidy_of_passed
    (h : Prepared atoms rests Good s w start providers)
    (hpassed : Relation.ReflTransGen (Passed policy s providers) start w') :
    w'.tree.Tidy atoms := by
  induction hpassed with
  | refl => exact h.tidy
  | tail _ hpass ih =>
    obtain ⟨fuel, o, hpass⟩ := hpass
    exact (h.reacting.pass ih hpass).1

end Session

end TreeLint
