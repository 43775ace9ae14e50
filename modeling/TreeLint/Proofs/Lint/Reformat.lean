import TreeLint.Proofs.Lint.Twice

/-!
# Formatting again

Formatting visits a file until a visit corrects nothing, but only a few
times. If it stopped because there was nothing left to correct, formatting
again finds the same rules in the same order, makes them in the same way,
and repeats that last visit, so that it is over after one visit
(`format_twice`).

Specification, §14.
-/

namespace TreeLint

variable {σ : Type} {policy : Policy} {test : RuleId → Nat → Bool}

/-! ## Making the rules again -/

/-- A rule that can always be made in the same way. -/
def Provider.Stateless (p : Provider σ) : Prop := ∀ i j, p.create i = p.create j

/-- A rule all of whose visitors look at the document only and never crash. -/
def Provider.Repeatable (p : Provider σ) : Prop :=
  ∀ number inst view visitor, p.create number = .made inst →
    (inst.bind view).visitor = .ok visitor →
    (∀ t, t.Sound → visitor.Repeatable t) ∧ visitor.Crashless

/-- How many instances were made before does not matter. -/
theorem Assembly.roster_build {s : Settings} {ps : List (Provider σ)}
    (hps : ∀ p ∈ ps, p.Stateless) (roster : Roster σ) (made made' : MadeCounts)
    (notes notes' : List Note) (fragile fragile' : Bool) :
    (Assembly.build s ps roster made notes fragile).roster =
      (Assembly.build s ps roster made' notes' fragile').roster := by
  induction ps generalizing roster made made' notes notes' fragile fragile' with
  | nil => rfl
  | cons p ps ih =>
    obtain ⟨hp, hps⟩ := List.forall_mem_cons.mp hps
    simp only [Assembly.build]
    rw [hp ((NameMap.find? p.id made).getD 0)
      ((NameMap.find? p.id made').getD 0)]
    split
    · rfl
    · rfl
    · split
      · exact ih hps ..
      · split
        · rfl
        · exact ih hps ..

/-- What was worked out is remembered. -/
theorem OrderCache.get_get (c : OrderCache) (registry : RegistryId)
    (rules : List RuleInfo) (disabled : List RuleId) :
    (c.get registry rules disabled).1.get registry rules disabled =
      c.get registry rules disabled := by
  have hagain : ∀ (c : OrderCache) (stamped : StampedOrder),
      c.find? ⟨registry, sortedNames disabled⟩ = some stamped →
          c.get registry rules disabled = (c, stamped) :=
    fun c stamped hfound => by simp only [OrderCache.get, hfound]
  cases hfound : c.find? ⟨registry, sortedNames disabled⟩ with
  | some stamped => rw [hagain c stamped hfound, hagain c stamped hfound]
  | none =>
    have hnew : c.get registry rules disabled =
        ({ entries := c.entries ++ [(⟨registry, sortedNames disabled⟩,
          ⟨c.next, RuleInfo.sort rules disabled⟩)]
           next := c.next + 1 }, ⟨c.next, RuleInfo.sort rules disabled⟩) := by
      simp only [OrderCache.get, hfound, OrderCache.compute]
    rw [hnew]
    apply hagain
    simp only [OrderCache.find?, Option.map_eq_none_iff] at hfound
    simp [OrderCache.find?, List.find?_append, hfound]

namespace Session

variable {w w' x : Session σ} {s : Settings} {providers : List (Provider σ)}
  {fuel : Nat}

/-- Asking again which rules run gives the same answer and works out nothing. -/
theorem order_again {r : Except EngineError (List (Provider σ))}
    (h : w.order s false = (w', r))
    (hregistry : x.engine.registry = w.engine.registry)
    (hcache : x.engine.cache = w'.engine.cache) :
    x.order s false = (x, r) := by
  simp only [order, Engine.order, OrderCache.resolve, Bool.false_eq_true,
    if_false, Prod.mk.injEq] at h
  obtain ⟨rfl, rfl⟩ := h
  obtain ⟨⟨registry, cache, made⟩, tree, asked, notes, survived⟩ := x
  cases hregistry
  cases hcache
  simp only [order, Engine.order, OrderCache.resolve, Bool.false_eq_true,
    if_false, OrderCache.get_get]

/-- Visiting a file with a roster that can be made. -/
theorem pass_of_visit {roster : Roster σ} {v : Visited}
    (hroster : (Assembly.build s providers {} w.engine.made [] false).roster =
      .ok roster)
    (hv : roster.visit fuel policy w.asked w.tree = some v) :
    ∃ w', w.pass fuel policy s providers = some (w', .ok v.outcome) ∧
      w'.tree = v.tree := by
  simp [pass, assemble, hroster, Except.mapError, visit, hv]

/-- A visit leaves the registry and the remembered orders alone. -/
theorem engine_pass {r : Except EngineError Outcome}
    (h : w.pass fuel policy s providers = some (w', r)) :
    w'.engine.registry = w.engine.registry ∧
      w'.engine.cache = w.engine.cache := by
  simp only [pass, assemble] at h
  cases hroster : (Assembly.build s providers {} w.engine.made [] false).roster
      with
  | error e =>
    simp only [hroster, Except.mapError] at h
    cases h
    exact ⟨rfl, rfl⟩
  | ok roster =>
    simp only [hroster, Except.mapError, visit, Option.map_map,
      Option.map_eq_some_iff, Function.comp_apply,
      Prod.mk.injEq] at h
    obtain ⟨v, -, rfl, -⟩ := h
    exact ⟨rfl, rfl⟩

/-- Formatting leaves the registry and the remembered orders as they are. -/
theorem engine_passes {left : Nat} {tally : Tally}
    {r : Except EngineError Tally}
    (h : w.passes fuel policy s providers left tally = some (w', r)) :
    w'.engine.registry = w.engine.registry ∧
      w'.engine.cache = w.engine.cache := by
  induction left generalizing w tally with
  | zero =>
    cases h
    exact ⟨rfl, rfl⟩
  | succ left ih =>
    simp only [passes] at h
    split at h
    · cases h
    · next hpass =>
      cases h
      exact engine_pass hpass
    · next hpass =>
      obtain ⟨hregistry, hcache⟩ := engine_pass hpass
      split at h
      · obtain ⟨hregistry', hcache'⟩ := ih h
        exact ⟨hregistry'.trans hregistry, hcache'.trans hcache⟩
      · cases h
        exact ⟨hregistry, hcache⟩

/-! ## Formatting again -/

/-- Only what counts as corrected is tallied as corrected. -/
theorem corrected_passes {left : Nat} {tally final : Tally}
    (htally : ∀ v ∈ tally.corrected, v.corrected = true)
    (h : w.passes fuel policy s providers left tally = some (w', .ok final)) :
    ∀ v ∈ final.corrected, v.corrected = true := by
  induction left generalizing w tally with
  | zero =>
    cases h
    exact htally
  | succ left ih =>
    have hadd : ∀ o, ∀ v ∈ (tally.add o).corrected, v.corrected = true := by
      intro o v hv
      rcases List.mem_append.mp hv with hv | hv
      · exact htally v hv
      · exact (List.mem_filter.mp hv).2
    simp only [passes] at h
    split at h
    · cases h
    · cases h
    · next o hpass =>
      split at h
      · exact ih (hadd o) h
      · cases h
        exact hadd o

/-- If fewer visits were made than could have been, the last one corrected
nothing, and what it found is what remains. -/
theorem last_pass {Good : Tree → String → Fix σ → Prop} {left : Nat}
    {tally final : Tally} (hp : ∀ p ∈ providers, p.CorrectsBy Good)
    (ht : w.tree.Consistent)
    (h : w.passes fuel policy s providers left tally = some (w', .ok final))
    (hfew : final.passes < tally.passes + left) :
    ∃ (u : Session σ) (o : Outcome), u.tree.Consistent ∧
      u.pass fuel policy s providers = some (w', .ok o) ∧
      Uncorrected o.violations ∧ final.remaining = o.violations := by
  -- By induction on the visits that are left. A visit that corrects
  -- something is followed by another one; the last one corrected nothing.
  induction left generalizing w tally with
  | zero =>
    cases h
    exact absurd hfew (Nat.lt_irrefl _)
  | succ left ih =>
    simp only [passes] at h
    split at h
    · cases h
    · cases h
    · next w₁ o hpass =>
      have up : Upkeep Good (fun _ => False) Tree.LeftAlone := upkeep_leftAlone
      split at h
      · refine ih (upheld_pass up hp ht hpass).1 h ?_
        simp only [Tally.add]
        omega
      · next hnone =>
        cases h
        have hunc : Uncorrected o.violations := by
          intro v hv
          simp only [List.any_eq_true, not_exists, not_and, Bool.not_eq_true]
            at hnone
          exact hnone v hv
        exact ⟨w, o, ht, hpass, hunc, hunc.filter_eq⟩

/-- A visit that corrects nothing is the last one. -/
theorem passes_of_uncorrected {o : Outcome}
    (h : w.pass fuel policy s providers = some (w', .ok o))
    (hnone : Uncorrected o.violations) (left : Nat) (tally : Tally) :
    w.passes fuel policy s providers (left + 1) tally =
      some (w', .ok (tally.add o)) := by
  have hany : o.violations.any (·.corrected) = false := by
    rw [List.any_eq_false]
    intro v hv
    simp [hnone v hv]
  simp only [passes, h, hany, Bool.false_eq_true, if_false]

/-- **A visit of a file that corrects nothing can be repeated** by any
session that has come to the tree it left. -/
theorem pass_twice {Good : Tree → String → Fix σ → Prop} {o : Outcome}
    (hp : ∀ p ∈ providers, p.CorrectsBy Good)
    (hstateless : ∀ p ∈ providers, p.Stateless)
    (hrepeatable : ∀ p ∈ providers, p.Repeatable) (ht : w.tree.Consistent)
    (h : w.pass fuel (.ofTest test) s providers = some (w', .ok o))
    (hnone : Uncorrected o.violations) (hx : x.tree = w'.tree) :
    ∃ x' o', x.pass fuel (.ofTest test) s providers = some (x', .ok o') ∧
      o'.violations = o.violations ∧
      x'.tree.document = w'.tree.document := by
  rcases pass_cases h with ⟨⟨e, he⟩, -⟩ | ⟨roster, v, hroster, hv, htree, ho⟩
  · cases he
  · cases ho
    have hrules := Assembly.correctsBy_build hp (by simp) hroster
    have hvisitors : ∀ r ∈ roster.rules,
        (∀ t, t.Sound → r.visitor.Repeatable t) ∧ r.visitor.Crashless :=
      Assembly.visitors_build hrepeatable (by simp) hroster
    obtain ⟨v', hv', hviolations, hdoc⟩ := Roster.visit_twice ht hrules
      (fun r hr => ⟨(hvisitors r hr).1 _ ht.sound, (hvisitors r hr).2⟩) hv
        hnone x.asked
    rw [← htree, ← hx] at hv'
    rw [Assembly.roster_build hstateless {} _ x.engine.made [] [] false false]
      at hroster
    obtain ⟨x', hpass, hx'⟩ := pass_of_visit hroster hv'
    exact ⟨x', v'.outcome, hpass, hviolations, by rw [hx', hdoc, htree]⟩

/-- **Formatting again changes nothing**, once formatting has come to an end
by itself. -/
theorem format_twice {Good : Tree → String → Fix σ → Prop} {f : Formatted}
    (hreg : ∀ id p, w.engine.registry.find? id = some p → p.CorrectsBy Good ∧
      p.Stateless ∧ p.Repeatable)
    (ht : w.tree.Consistent)
    (h : w.format fuel (.ofTest test) s = some (w', .ok f))
    (hfew : f.passes < maxPasses) :
    ∃ w'' f', w'.format fuel (.ofTest test) s = some (w'', .ok f') ∧
      f'.passes = 1 ∧ f'.text = none ∧
      f'.violations = f.violations.filter (fun v => !v.corrected) ∧
        w''.tree.document = w'.tree.document := by
  unfold format at h
  split at h
  · cases h
  · next w₁ providers horder =>
    obtain ⟨htree, hfound⟩ := order_cases horder
    have hproviders : ∀ p ∈ providers, p.CorrectsBy Good ∧ p.Stateless ∧
        p.Repeatable := by
      intro p hp
      obtain ⟨id, hid⟩ := hfound providers rfl p hp
      exact hreg id p hid
    have hp : ∀ p ∈ providers, p.CorrectsBy Good := fun p hp =>
      (hproviders p hp).1
    obtain ⟨⟨w₂, r⟩, hpasses, hfinal⟩ := Option.map_eq_some_iff.mp h
    cases r with
    | error e => cases hfinal
    | ok tally =>
      cases hfinal
      -- The last visit corrected nothing. Made once more, it finds the
      -- same.
      obtain ⟨u, o, hu, hpass, hnone, hremaining⟩ :=
        last_pass hp (htree ▸ ht) hpasses
          (by simpa [Tally.formatted] using hfew)
      obtain ⟨hregistry, hcache⟩ := engine_passes hpasses
      have hregistry₁ : w₁.engine.registry = w.engine.registry :=
        congrArg (fun q => q.1.engine.registry) horder.symm
      obtain ⟨x', o', hpass', hviolations, hdoc⟩ :=
        pass_twice (x := w₂) hp (fun p hp => (hproviders p hp).2.1)
        (fun p hp => (hproviders p hp).2.2) hu hpass hnone rfl
      have horder' := order_again horder (hregistry.trans hregistry₁) hcache
      have hunc : Uncorrected o'.violations := hviolations ▸ hnone
      have hempty : o'.violations.filter (·.corrected) = [] := by
        rw [List.filter_eq_nil_iff]
        intro v hv
        simp [hunc v hv]
      -- What was reported as corrected in earlier visits is not left over.
      have hall : ∀ v ∈ tally.corrected, v.corrected = true :=
        corrected_passes (by simp) hpasses
      have hfiltered : tally.corrected.filter (fun v => !v.corrected) = [] := by
        rw [List.filter_eq_nil_iff]
        intro v hv
        simp [hall v hv]
      refine ⟨x', (({} : Tally).add o').formatted x'.tree, ?_, rfl,
        ?_, ?_, hdoc⟩
      · rw [format, horder']
        simp only [maxPasses, passes_of_uncorrected hpass' hunc,
          Option.map_some]
        rfl
      · simp [Tally.formatted, Tally.add, hempty]
      · show [] ++ o'.violations.filter (·.corrected) ++ o'.violations.filter
          (fun v => !v.corrected) =
          (tally.corrected ++ tally.remaining).filter (fun v => !v.corrected)
        rw [hempty, hunc.filter_eq, List.filter_append, hfiltered, hremaining,
          hnone.filter_eq, hviolations]
        rfl

end Session

end TreeLint
