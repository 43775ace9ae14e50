import TreeLint.Proofs.Lint.Reformat
import TreeLint.Proofs.Lint.Registration
import TreeLint.Proofs.Lint.Route

/-!
# A rule on its own

Formatting with one rule that has a correction for whatever it reports, when
everything may be corrected.

A program of such a rule is followed request by request, with the number of
reports it has made (`Hook.Achieves`). If it makes none, nothing happens at
all, whatever the policy (`Hook.Silent`). So if a first visit leaves a
document on which every call is silent (`Rested`), formatting is over after
the second visit, and a lint that follows has nothing to report
(`Session.format_settles`).

Linting and formatting (specification, §14) with one standard rule (§13).
-/

namespace TreeLint

variable {σ : Type} {policy : Policy} {rule : RuleId} {t u : Tree} {n : NodeId}
  {reports : Nat} {memory : σ}

/-! ## Programs -/

namespace Hook

variable {post post' : Nat → Tree → Prop} {h : Hook σ} {next : σ → Hook σ}

/-- A program that does nothing but look at the tree and correct what it
reports. If everything is allowed, all its corrections succeed, it ends with
this memory, and `post` holds of the number of reports, counted from
`reports` on, and of the tree. -/
def Achieves (memory : σ) (post : Nat → Tree → Prop) :
    Hook σ → Nat → Tree → Prop
  | .finish m, reports, t => m = memory ∧ post reports t
  | .inspect k, reports, t => (k t).Achieves memory post reports t
  | .emitAndFix _ _ fix k, reports, t =>
    ∃ u m, fix.run t.begin = (u, .finished m none) ∧
      (k .allow (some m)).Achieves memory post (reports + 1)
        (u.commit t.checkpoint)
  | _, _, _ => False

/-- A weaker end is achieved as well. -/
theorem Achieves.mono (hh : h.Achieves memory post reports t)
    (hpost : ∀ k u, post k u → post' k u) :
    h.Achieves memory post' reports t := by
  induction h generalizing t reports with
  | finish => exact ⟨hh.1, hpost _ _ hh.2⟩
  | inspect k ih => exact ih t hh
  | emitAndFix o m fix k ih =>
    obtain ⟨u, m, hfix, hrest⟩ := hh
    exact ⟨u, m, hfix, ih _ _ hrest⟩
  | crash | perform | emit | note => exact hh.elim

/-- Programs one after the other: the second one starts where the first one
ends. -/
theorem Achieves.andThen
    (hh : h.Achieves memory (fun k u =>
      (next memory).Achieves memory post k u) reports t) :
    (h.andThen next).Achieves memory post reports t := by
  induction h generalizing t reports with
  | finish m =>
    obtain ⟨rfl, hnext⟩ := hh
    exact hnext
  | inspect k ih => exact ih t hh
  | emitAndFix o m fix k ih =>
    obtain ⟨u, m, hfix, hrest⟩ := hh
    exact ⟨u, m, hfix, ih _ _ hrest⟩
  | crash | perform | emit | note => exact hh.elim

/-- A correction by one edit that succeeds. -/
theorem achieves_correct {op : Op} {e : Edited} (offset : Nat)
    (message : String) (hedit : op.edit? t.begin = some e)
    (hok : e.failure = none)
    (hpost : post (reports + 1) (e.tree.commit t.checkpoint)) :
    (correct offset message [op] memory).Achieves memory post reports t := by
  have happly : op.apply t.begin = (e.tree, .done) := by
    cases op <;> simp only [Op.edit?, Option.some.injEq, reduceCtorEq]
      at hedit <;> subst hedit <;>
      simp only [Op.apply, Op.edit?, Edited.reply, hok]
  refine ⟨e.tree, memory, ?_, rfl, hpost⟩
  simp only [Fix.ofOps, Fix.run, happly]

/-- What a program comes to is settled by the tree. -/
theorem Achieves.exact (hh : h.Achieves memory post reports t) :
    ∃ k u, post k u ∧ h.Achieves memory (fun k' u' => k' = k ∧
      u' = u) reports t := by
  induction h generalizing t reports with
  | finish => exact ⟨reports, t, hh.2, hh.1, rfl, rfl⟩
  | inspect k ih => exact ih t hh
  | emitAndFix o m fix k ih =>
    obtain ⟨u, m, hfix, hrest⟩ := hh
    obtain ⟨j, v, hv, hexact⟩ := ih _ _ hrest
    exact ⟨j, v, hv, u, m, hfix, hexact⟩
  | crash | perform | emit | note => exact hh.elim

/-- **A program that achieves something does so when it is run** under a
policy that allows every correction, and fails in none of them. -/
theorem Achieves.run (hh : h.Achieves memory post reports t) (rule : RuleId)
    {s : Scene} (hs : s.tree = t) :
    ∃ s' k, h.run Policy.all rule s = (s', .finished memory) ∧ post k s'.tree ∧
      s'.failures = s.failures := by
  subst hs
  induction h generalizing s reports with
  | finish m =>
    obtain ⟨rfl, hpost⟩ := hh
    exact ⟨s, reports, rfl, hpost, rfl⟩
  | inspect k ih => exact ih _ hh
  | emitAndFix o message fix k ih =>
    obtain ⟨u, m, hfix, hrest⟩ := hh
    let s₁ : Scene := { s.answered rule o message true true with
      tree := u.commit s.tree.checkpoint }
    obtain ⟨s', j, hrun, hpost, hfailures⟩ := ih .allow (some m) (s := s₁) hrest
    have hask : Policy.all s.asked rule o = .answer true := rfl
    have hbegin : (s.answered rule o message true true).tree.begin =
        s.tree.begin := rfl
    refine ⟨s', j, ?_, hpost, hfailures⟩
    simp only [Hook.run, report_of_answer hask, Bool.and_true, if_true,
      hbegin, hfix]
    exact hrun
  | crash | perform | emit | note => exact hh.elim

/-- A program that reports nothing, and ends with this memory. -/
def Silent (memory : σ) : Hook σ → Tree → Prop
  | .finish m, _ => m = memory
  | .inspect k, t => (k t).Silent memory t
  | _, _ => False

theorem Silent.run (hh : h.Silent memory t) {s : Scene} (hs : s.tree = t) :
    h.run policy rule s = (s, .finished memory) := by
  subst hs
  induction h generalizing s with
  | finish m =>
    obtain rfl : m = memory := hh
    rfl
  | inspect k ih => exact ih _ hh
  | crash | perform | emit | emitAndFix | note => exact hh.elim

/-- Reports only add up. -/
theorem Achieves.le
    (hh : h.Achieves memory (fun k _ => k = n) reports t) : reports ≤ n := by
  induction h generalizing t reports with
  | finish => exact Nat.le_of_eq hh.2
  | inspect k ih => exact ih t hh
  | emitAndFix o m fix k ih =>
    obtain ⟨u, m, -, hrest⟩ := hh
    exact Nat.le_of_succ_le (ih _ _ hrest)
  | crash | perform | emit | note => exact hh.elim

/-- To achieve an end without a report is to have nothing to report. -/
theorem Achieves.silent
    (hh : h.Achieves memory (fun k _ => k = reports) reports t) :
    h.Silent memory t := by
  induction h generalizing t with
  | finish => exact hh.1
  | inspect k ih => exact ih t hh
  | emitAndFix o m fix k ih =>
    obtain ⟨u, m, -, hrest⟩ := hh
    exact absurd hrest.le (Nat.not_succ_le_self reports)
  | crash | perform | emit | note => exact hh.elim

end Hook

/-! ## Walks -/

/-- A rule that acts on a node before its children are visited, and at no
other time. -/
structure NodeRule (σ : Type) where
  info : RuleInfo
  memory : σ
  before : SettingsView → NodeId → σ → Hook σ

namespace NodeRule

/-- What there is to register. -/
def provider (r : NodeRule σ) : Provider σ :=
  .ofVisitor r.info fun view => { memory := r.memory, before := r.before view }

/-- The program that is run for a node. -/
def program (r : NodeRule σ) (s : Settings) (n : NodeId) : Hook σ :=
  r.before (s.view r.info.id r.info.keys) n r.memory

/-- The rule as it takes part in a walk. -/
def active (r : NodeRule σ) (s : Settings) : ActiveRule σ :=
  { id := r.info.id,
    visitor :=
      { memory := r.memory,
        before := r.before (s.view r.info.id r.info.keys) } }

/-- Whatever node of the document the rule is called for, it has nothing to
report. -/
def Rested (r : NodeRule σ) (s : Settings) (f : Forest) : Prop :=
  ∀ t, t.Consistent → t.document = f → ∀ n ∈ f.ids,
    (r.program s n).Silent r.memory t

end NodeRule

/-- A call that reports nothing leaves everything as it was. -/
theorem ActiveRule.invoke_of_silent {r : ActiveRule σ} {s : Scene}
    {phase : Phase} {node : Option NodeId}
    (hh : (r.hook phase node).Silent r.visitor.memory s.tree.begin)
    (ht : s.tree.Consistent) :
    r.invoke policy phase node s = (r, s) := by
  have hrun : (r.hook phase node).run policy r.id
      { s with tree := s.tree.begin } =
      ({ s with tree := s.tree.begin }, .finished r.visitor.memory) :=
        hh.run rfl
  simp only [ActiveRule.invoke, hrun, Tree.commit_begin ht]

namespace Walk

variable {w w' v : Walk σ} {r : NodeRule σ} {s : Settings} {phase : Phase}

/-- Nothing was changed and nothing reported, and the rules are what they
were. -/
structure Unmoved (w w' : Walk σ) : Prop where
  rules : w'.rules = w.rules
  scene : w'.scene = w.scene

theorem Unmoved.tree (h : Unmoved w w') : w'.tree = w.tree :=
  congrArg Scene.tree h.scene

theorem Unmoved.trans (h : Unmoved w v) (h' : Unmoved v w') : Unmoved w w' :=
  ⟨h'.rules.trans h.rules, h'.scene.trans h.scene⟩

/-- A call of a rule on its own. -/
theorem dispatch_eq {a b : ActiveRule σ} {scene : Scene}
    (hrules : w.rules = [a]) (ha : a.failed = false)
    (hn : w.tree.isAttached n = true)
    (hcall : a.invoke policy phase (some n) w.scene = (b, scene)) :
    (w.dispatch policy phase n).rules = [b] ∧
      (w.dispatch policy phase n).scene = scene := by
  have hgo : w.scene.tree.isAttached n = true := hn
  simp [dispatch, hrules, callEach, hgo, ha, hcall]

theorem unmoved_dispatch (hrules : w.rules = [r.active s])
    (hn : w.tree.isAttached n = true) (ht : w.tree.Consistent)
    (hh : ((r.active s).hook phase (some n)).Silent r.memory w.tree.begin) :
    Unmoved w (w.dispatch policy phase n) := by
  have hcall : (r.active s).invoke policy phase (some n) w.scene =
      (r.active s, w.scene) :=
    ActiveRule.invoke_of_silent hh ht
  obtain ⟨hrules', hscene⟩ := dispatch_eq hrules rfl hn hcall
  exact ⟨hrules'.trans hrules.symm, hscene⟩

/-- After the children of a node, the rule does nothing. -/
theorem unmoved_dispatch_after (policy : Policy)
    (hrules : w.rules = [r.active s]) (hn : w.tree.isAttached n = true)
    (ht : w.tree.Consistent) : Unmoved w (w.dispatch policy .afterChildren n) :=
  unmoved_dispatch hrules hn ht rfl

/-- Nor does it do anything at the end. -/
theorem unmoved_finish (policy : Policy) (hrules : w.rules = [r.active s])
    (ht : w.tree.Consistent) :
    Unmoved w (w.finish policy) := by
  have hlast : (r.active s).invoke policy .afterLastNode none w.scene =
      (r.active s, w.scene) :=
    ActiveRule.invoke_of_silent rfl ht
  constructor <;> simp [finish, hrules, callEach, hlast,
    show (r.active s).failed = false from rfl]

/-- A call whose corrections all succeed. -/
theorem dispatch_of_achieves {post : Nat → Tree → Prop}
    (hrules : w.rules = [r.active s]) (hn : w.tree.isAttached n = true)
    (hh : (r.program s n).Achieves r.memory post reports w.tree.begin) :
    ∃ k u, post k u ∧ (w.dispatch Policy.all .beforeChildren n).rules =
      [r.active s] ∧
      (w.dispatch Policy.all .beforeChildren n).tree =
        u.commit w.tree.checkpoint ∧
      (w.dispatch Policy.all .beforeChildren n).scene.failures =
        w.scene.failures := by
  obtain ⟨after, k, hrun, hpost, hfailures⟩ :=
    hh.run r.info.id (s := { w.scene with tree := w.tree.begin }) rfl
  have hcall : (r.active s).invoke Policy.all .beforeChildren (some n) w.scene =
      (r.active s,
          { after with tree := after.tree.commit w.tree.checkpoint }) := by
    have hhook : ((r.active s).hook .beforeChildren (some n)).run Policy.all
        (r.active s).id
        { w.scene with
          tree := w.scene.tree.begin } = (after, .finished r.memory) := hrun
    simp only [ActiveRule.invoke, hhook]
    rfl
  obtain ⟨hrules', hscene⟩ := dispatch_eq hrules rfl hn hcall
  refine ⟨k, after.tree, hpost, hrules', ?_, ?_⟩
  · rw [tree, hscene]
  · rw [hscene]
    exact hfailures

/-- A walk that leaves the tree alone goes along the document. -/
theorem onRoute_document (ht : t.Sound) {seen : List NodeId}
    (hseen : seen ⊆ t.document.ids) :
    OnRoute t.document seen t where
  sound := ht
  attached _ hn := hseen hn
  listed n hn := by
    rw [ht.offspring_document (hseen hn), List.filter_eq_self]
    intro c hc
    simpa using ht.child_mem_document (hseen hn) hc
  strays n hn c hc hnot := absurd (ht.child_mem_document (hseen hn) hc) hnot

/-- A walk over a document that needs nothing ends, and nothing has happened. -/
theorem ends_of_rested (policy : Policy) (hrules : w.rules = [r.active s])
    (ht : w.tree.Consistent) (hrest : r.Rested s w.tree.document) :
    ∃ w' seen, Ends policy Tree.root w w' seen ∧ Unmoved w w' := by
  -- The route is the document itself, and the invariant that nothing moves.
  let inv : List NodeId → Walk σ → Prop := fun seen v =>
    seen ⊆ w.tree.document.ids ∧ Unmoved w v
  have hattached : ∀ {n v}, n ∈ w.tree.document.ids → Unmoved w v →
      v.tree.isAttached n = true := by
    intro n v hn hv
    rw [hv.tree]
    exact ht.sound.mem_document_iff.mp hn
  have hguide : Guide policy w.tree.document inv := by
    refine ⟨fun hv => ?_, fun {seen n v} hv hnext => ?_,
      fun {seen n v} hv hn => ?_⟩
    · rw [hv.2.tree]
      exact onRoute_document ht.sound hv.1
    · have hsub : seen ++ [n] ⊆ w.tree.document.ids := hnext.subset
      have hn : n ∈ w.tree.document.ids := hsub (by simp)
      have hsilent : ((r.active s).hook .beforeChildren (some n)).Silent
          r.memory v.tree.begin := by
        rw [hv.2.tree]
        exact hrest _ ht.begin (Tree.document_congr rfl) n hn
      exact ⟨hsub, hv.2.trans (unmoved_dispatch (hv.2.rules.trans hrules)
        (hattached hn hv.2) (hv.2.tree ▸ ht) hsilent)⟩
    · exact ⟨hv.1, hv.2.trans (unmoved_dispatch_after policy
        (hv.2.rules.trans hrules) (hattached (hv.1 hn) hv.2)
        (hv.2.tree ▸ ht))⟩
  obtain ⟨w', hends, -, hw'⟩ :=
    hguide.ends ht.sound.nodup_document ht.sound.roots_document
    ⟨List.nil_subset _, rfl, rfl⟩
  exact ⟨w', _, hends, hw'⟩

end Walk

/-! ## Sessions -/

theorem RuleInfo.sort_singleton {info : RuleInfo} (h : info.modifiers = []) :
    RuleInfo.sort [info] [] = .ok [info] := by
  simp [RuleInfo.sort, running, waiting, waits, place, NameMap.ofList,
    NameMap.insert, targets, isLate, h]

namespace Session

variable {w w' start : Session σ} {r : NodeRule σ} {s : Settings} {w₁ : Walk σ}
  {seen : List NodeId}

/-- The only rule of a registry runs if it is active. -/
theorem order_alone {p : Provider σ}
    (hreg : Registry.ofProviders w.engine.registry.id [p] =
      .ok w.engine.registry)
    (hcache : w.engine.cache.Faithful w.engine.registry)
    (hwishes : p.modifiers = []) (hactive : p.toRuleInfo.isActive s = true) :
    ∃ start, w.order s false = (start, .ok [p]) ∧ start.tree = w.tree := by
  have hproviders : w.engine.registry.providers = [(p.id, p)] := by
    unfold Registry.ofProviders at hreg
    split at hreg
    · next map hmap =>
      have hadd : Registry.add [] p = .ok map := by simpa using hmap
      rw [← Except.ok.inj hreg]
      exact Registry.eq_insert_of_add hadd
    · cases hreg
  have hinfos : w.engine.registry.infos = [p.toRuleInfo] := by
    rw [Registry.infos, hproviders, List.map_singleton]
  have hdisabled : w.engine.registry.disabled s = [] := by
    simp [Registry.disabled, hinfos, hactive]
  have hresult := (hcache.resolve s false).2
  rw [hinfos, hdisabled, RuleInfo.sort_singleton hwishes] at hresult
  refine ⟨(w.order s false).1, Prod.ext rfl ?_, rfl⟩
  simp [Session.order, Engine.order, hinfos, hdisabled, hresult, Except.map,
    Except.mapError, Registry.find?,
    hproviders, NameMap.find?]

/-- The walk with which a rule on its own visits the file. -/
def walkWith (r : NodeRule σ) (s : Settings) (w : Session σ) : Walk σ :=
  { rules := [r.active s], scene := { tree := w.tree, asked := w.asked } }

/-- A visit, from the walk. -/
theorem pass_alone (hends : Walk.Ends policy Tree.root (w.walkWith r s) w₁ seen)
    (hrules : w₁.rules = [r.active s]) (ht : w₁.tree.Consistent) :
    ∃ w' enough, (∀ fuel, enough ≤ fuel → w.pass fuel policy s [r.provider] =
        some (w', .ok { violations := Violation.sort w₁.scene.violations,
                        failures := w₁.scene.failures })) ∧
      w'.tree = w₁.tree ∧ w'.engine.registry = w.engine.registry ∧
        w'.engine.cache = w.engine.cache := by
  obtain ⟨enough, hrun⟩ := hends.run
  have hfinish := Walk.unmoved_finish policy hrules ht
  -- One rule that only hands out a visitor: making and binding it is a
  -- computation.
  have hroster : (Assembly.build s [r.provider] {} w.engine.made
      [] false).roster = .ok { rules := [r.active s] } := rfl
  -- With enough fuel the visit is the walk that ends; the call after the
  -- last node leaves the scene alone.
  have hvisit : ∀ fuel, enough ≤ fuel →
      Roster.visit fuel policy w.asked { rules := [r.active s] } w.tree = some
      { tree := w₁.tree
        outcome := { violations := Violation.sort w₁.scene.violations,
                     failures := w₁.scene.failures }
        asked := w₁.scene.asked, notes := w₁.scene.notes, calls :=
            (w₁.finish policy).calls } := by
    intro fuel hfuel
    have hwalk : Walk.run policy fuel
        { rules := [r.active s],
          scene := { tree := w.tree, asked := w.asked } } =
        some (w₁.finish policy) := hrun fuel hfuel
    simp [Roster.visit, hwalk, hfinish.scene, Walk.tree]
  let a := (w.assemble s [r.provider]).1
  refine ⟨{ a with
    tree := w₁.tree, asked := w₁.scene.asked,
    notes := a.notes ++ w₁.scene.notes }, enough, ?_,
    rfl, rfl, rfl⟩
  intro fuel hfuel
  simp only [Session.pass, assemble, hroster, Except.mapError, visit,
    hvisit fuel hfuel, Option.map_some, a]

/-- A visit of a file that needs nothing. -/
theorem pass_of_rested (policy : Policy) (ht : w.tree.Consistent)
    (hrest : r.Rested s w.tree.document) :
    ∃ w' enough, (∀ fuel, enough ≤ fuel → w.pass fuel policy s [r.provider] =
      some (w', .ok {})) ∧
      w'.tree = w.tree ∧ w'.engine.registry = w.engine.registry ∧
        w'.engine.cache = w.engine.cache := by
  have hrules : (w.walkWith r s).rules = [r.active s] := rfl
  obtain ⟨w₁, seen, hends, hunmoved⟩ :=
    Walk.ends_of_rested policy hrules ht hrest
  have htree : w₁.tree = w.tree := hunmoved.tree
  obtain ⟨w', enough, hpass, htree', hengine⟩ :=
    pass_alone hends (hunmoved.rules.trans hrules) (htree ▸ ht)
  refine ⟨w', enough, fun fuel hfuel => ?_, htree'.trans htree, hengine⟩
  rw [hpass fuel hfuel, hunmoved.scene]
  simp [walkWith, Violation.sort]

/-- A lint with the rule of a file that needs nothing. -/
theorem lint_of_rested (horder : w.order s false = (start, .ok [r.provider]))
    (ht : start.tree.Consistent) (hrest : r.Rested s start.tree.document) :
    ∃ w' enough, ∀ fuel, enough ≤ fuel → w.lint fuel s = some (w', .ok {}) := by
  obtain ⟨w', enough, hpass, -⟩ := pass_of_rested Policy.none ht hrest
  refine ⟨w', enough, fun fuel hfuel => ?_⟩
  simp only [lint, horder, hpass fuel hfuel]

/-- The visits of formatting, if the first one leaves a document that needs
nothing any more: a second one, if anything was corrected, finds nothing. -/
theorem passes_settle
    (hends : Walk.Ends Policy.all Tree.root (start.walkWith r s) w₁ seen)
    (hrules : w₁.rules = [r.active s]) (ht : w₁.tree.Consistent)
    (hfailures : w₁.scene.failures = []) (hrest : r.Rested s w₁.tree.document) :
    ∃ w' final enough, (∀ fuel, enough ≤ fuel →
        start.passes fuel Policy.all s [r.provider] maxPasses {} =
          some (w', .ok final)) ∧
      final.passes ≤ 2 ∧ final.failures = [] ∧ w'.tree = w₁.tree ∧
      w'.engine.registry = start.engine.registry ∧
        w'.engine.cache = start.engine.cache := by
  obtain ⟨v, enough, hpass, htree, hregistry, hcache⟩ :=
    pass_alone hends hrules ht
  rw [hfailures] at hpass
  let o : Outcome := { violations := Violation.sort w₁.scene.violations }
  by_cases hcorrected : (Violation.sort w₁.scene.violations).any (·.corrected) =
    true
  · have hv : v.tree.Consistent ∧ r.Rested s v.tree.document := by
      rw [htree]
      exact ⟨ht, hrest⟩
    obtain ⟨w', enough', hpass', htree', hregistry', hcache'⟩ :=
      pass_of_rested Policy.all hv.1 hv.2
    refine ⟨w', (Tally.add {} o).add {}, max enough enough', fun fuel hfuel =>
      ?_, Nat.le_refl 2, rfl,
      htree'.trans htree, hregistry'.trans hregistry, hcache'.trans hcache⟩
    have hfirst := hpass fuel (Nat.le_trans (Nat.le_max_left _ _) hfuel)
    have hsecond := hpass' fuel (Nat.le_trans (Nat.le_max_right _ _) hfuel)
    simp only [maxPasses, passes, hfirst, if_pos hcorrected, hsecond]
    rfl
  · refine ⟨v, Tally.add {} o, enough, fun fuel hfuel => ?_, Nat.le_succ 1, rfl,
      htree, hregistry, hcache⟩
    simp only [maxPasses, passes, hpass fuel hfuel, if_neg hcorrected, o]

/-! ## More fuel keeps a finished answer

Fuel bounds how long a walk may go on and has no other influence, so an
answer that was given is given with more of it. From the walk this goes up
to a visit, several visits, and formatting. -/

section Fuel

variable {fuel fuel' left : Nat} {tally : Tally}
  {providers : List (Provider σ)}

theorem visit_mono {roster : Roster σ} {x : Session σ × Outcome}
    (h : w.visit fuel policy roster = some x) (hle : fuel ≤ fuel') :
    w.visit fuel' policy roster = some x := by
  rw [visit, Roster.visit] at h ⊢
  split_ifs at h ⊢ with hempty
  · exact h
  · obtain ⟨v, hv, rfl⟩ := Option.map_eq_some_iff.mp h
    obtain ⟨w', hrun, rfl⟩ := Option.map_eq_some_iff.mp hv
    rw [Walk.run_mono hrun hle]
    rfl

theorem pass_mono {x : Session σ × Except EngineError Outcome}
    (h : w.pass fuel policy s providers = some x) (hle : fuel ≤ fuel') :
    w.pass fuel' policy s providers = some x := by
  rw [pass] at h ⊢
  split at h
  · exact h
  · obtain ⟨y, hy, rfl⟩ := Option.map_eq_some_iff.mp h
    rw [visit_mono hy hle]
    rfl

theorem passes_mono {x : Session σ × Except EngineError Tally}
    (h : w.passes fuel policy s providers left tally = some x)
    (hle : fuel ≤ fuel') :
    w.passes fuel' policy s providers left tally = some x := by
  -- By induction on the visits that are left; each one has the same answer
  -- with more fuel.
  induction left generalizing w tally with
  | zero => exact h
  | succ left ih =>
    cases hpass : w.pass fuel policy s providers with
    | none => simp [passes, hpass] at h
    | some y =>
      simp only [passes, hpass, pass_mono hpass hle] at h ⊢
      split at h
      · cases h
      · exact h
      · split_ifs at h ⊢
        · exact ih h
        · exact h

theorem format_mono {x : Session σ × Except EngineError Formatted}
    (h : w.format fuel policy s = some x) (hle : fuel ≤ fuel') :
    w.format fuel' policy s = some x := by
  rw [format] at h ⊢
  split at h
  · exact h
  · obtain ⟨y, hy, rfl⟩ := Option.map_eq_some_iff.mp h
    rw [passes_mono hy hle]
    rfl

end Fuel

/-! ## Formatting with one rule -/

/-- **Formatting settles.** Let the first visit with a rule on its own end
without a failure, on a document that needs nothing any more. Then
formatting is over after one more visit at most, with the tree that the
first visit left, and a lint that follows has nothing to report. -/
theorem format_settles (horder : w.order s false = (start, .ok [r.provider]))
    (hends : Walk.Ends Policy.all Tree.root (start.walkWith r s) w₁ seen)
    (hrules : w₁.rules = [r.active s]) (ht : w₁.tree.Consistent)
    (hfailures : w₁.scene.failures = []) (hrest : r.Rested s w₁.tree.document) :
    ∃ w' f enough, (∀ fuel, enough ≤ fuel → w.format fuel Policy.all s =
      some (w', .ok f)) ∧
      f.passes ≤ 2 ∧ f.failures = [] ∧ w'.tree = w₁.tree ∧
      ∃ w'' enough', ∀ fuel, enough' ≤ fuel →
        w'.lint fuel s = some (w'', .ok {}) := by
  obtain ⟨w', final, enough, hpasses, hfew, hnone, htree, hregistry, hcache⟩ :=
    passes_settle hends hrules ht hfailures hrest
  have hstart : start.engine.registry = w.engine.registry :=
    congrArg (fun x => x.1.engine.registry) horder.symm
  have horder' : w'.order s false = (w', .ok [r.provider]) :=
    order_again horder (hregistry.trans hstart) hcache
  refine ⟨w', final.formatted w'.tree, enough, fun fuel hfuel => ?_, hfew,
    hnone, htree,
    lint_of_rested horder' (htree ▸ ht) (htree ▸ hrest)⟩
  simp only [format, horder, hpasses fuel hfuel, Option.map_some, Except.map]

end Session
end TreeLint
