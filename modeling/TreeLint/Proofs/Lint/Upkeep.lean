import TreeLint.Lint.Engine
import TreeLint.Proofs.Lint.Isolation
import TreeLint.Proofs.Tree.Kinds

/-!
# What corrections keep, a whole session keeps

Most rules change the tree only in corrections (`Hook.CorrectsBy`). What
such rules keep between the tree before a visit and the tree after it can
then be read off their corrections: if a relation between trees is
transitive, holds when nothing but new nodes on their own was left behind,
and holds across every correction that succeeds, it holds across every call,
every walk and every session (`Upkeep`). The rest happens here once for all:
corrections that fail, calls that crash after corrections that succeeded,
nodes that are detached while they are visited.

Corrections may be told apart by what they report. A relation that only some
of them keep (those whose message is `safe`) holds across a visit if no
other one is among the violations that the visit counts as corrected. This
ties the flags of violations to what was done to the tree.

Specification, §4.3: corrections are transactions, so a session is a chain
of corrections that succeeded.
-/

namespace TreeLint

variable {σ : Type} {policy : Policy} {rule : RuleId}

/-! ## Programs that change the tree only in corrections -/

/-- A correction that is begun on `t` uses only checkpoints it was handed
out itself. -/
def Fix.KeepsToItself (fix : Fix σ) (t : Tree) : Prop :=
  ∀ ops u e, fix.Runs t.begin ops u e → ownCheckpoints ops t.begin [] = true

theorem ownCheckpoints_of_none {ops : List Op}
    (h : ∀ op ∈ ops, op.checkpoint? = none) (t : Tree)
    (issued : List Checkpoint) : ownCheckpoints ops t issued = true := by
  induction ops generalizing t issued with
  | nil => rfl
  | cons op ops ih =>
    obtain ⟨hop, hops⟩ := List.forall_mem_cons.mp h
    simp only [ownCheckpoints, hop, Option.all_none, ih hops, Bool.and_self]

/-- Operations carried out until one fails: some of them, from the first on. -/
theorem Fix.Runs.prefix_ofOps {memory : σ} {ops os : List Op} {t u : Tree}
    {e : FixEnd σ}
    (hr : (Fix.ofOps memory ops).Runs t os u e) : os <+: ops := by
  induction ops generalizing t os with
  | nil =>
    cases hr
    exact List.prefix_refl _
  | cons op ops ih =>
    obtain ⟨rest, rfl, ⟨error, -, rfl, -⟩ | ⟨-, hrest⟩⟩ := hr.ofOps_cons
    · exact List.cons_prefix_cons.mpr ⟨rfl, List.nil_prefix⟩
    · exact List.cons_prefix_cons.mpr ⟨rfl, ih hrest⟩

theorem Fix.keepsToItself_ofOps (memory : σ) {ops : List Op}
    (h : ∀ op ∈ ops, op.checkpoint? = none) (t : Tree) :
    (Fix.ofOps memory ops).KeepsToItself t :=
  fun _ _ _ hr => ownCheckpoints_of_none (fun op hop =>
    h op (hr.prefix_ofOps.subset hop)) _ _

/-- What is still known of a tree in which `now` held once: the kinds of the
nodes there were. -/
def Later (now : Tree → Prop) (u : Tree) : Prop :=
  ∃ t, t.Consistent ∧ now t ∧ t.KeepsKinds u

section Knowledge

variable {now now' : Tree → Prop} {t u : Tree}

theorem Later.mono (hsub : ∀ t, t.Consistent → now' t → now t)
    (hu : Later now' u) : Later now u := by
  obtain ⟨t, ht, hnow, hkinds⟩ := hu
  exact ⟨t, ht, hsub t ht hnow, hkinds⟩

theorem Later.of_now (ht : t.Consistent) (hnow : now t) : Later now t :=
  ⟨t, ht, hnow, .refl t⟩

theorem Later.later (hu : Later (Later now) u) : Later now u := by
  obtain ⟨t, -, ⟨t₀, ht₀, hnow, hkinds₀⟩, hkinds⟩ := hu
  exact ⟨t₀, ht₀, hnow, hkinds₀.trans hkinds⟩

/-- What a node is, it stays. -/
theorem Later.hasKind {n : NodeId} {k : Kind} (hu : Later (· = t) u)
    (hcons : u.Consistent) (hk : t.hasKind n k = true) :
    u.hasKind n k = true := by
  obtain ⟨_, ht, rfl, hkinds⟩ := hu
  exact hkinds.hasKind ht.sound hcons.sound hk

end Knowledge

namespace Hook

/-- A program that changes the tree only in corrections, each `Good` for the
tree it is begun on and the message it is reported with. All that is known
of the tree when the program starts is `now`. -/
def CorrectsBy (Good : Tree → String → Fix σ → Prop) :
    Hook σ → (Tree → Prop) → Prop
  | .finish _, _ => True
  | .crash _, _ => True
  | .inspect k, now => ∀ t, t.Consistent → now t → (k t).CorrectsBy Good (· = t)
  | .perform _ _, _ => False
  | .emit _ _ _ k, now => ∀ d, (k d).CorrectsBy Good now
  | .emitAndFix _ message fix k, now =>
    (∀ t, t.Consistent → now t → fix.KeepsToItself t ∧ Good t message fix) ∧
      ∀ d memory, (k d memory).CorrectsBy Good (Later now)
  | .note _ _ k, now => k.CorrectsBy Good now

variable {Good : Tree → String → Fix σ → Prop} {now now' : Tree → Prop}
  {h : Hook σ}

/-- The more is known, the easier. -/
theorem CorrectsBy.mono (hh : h.CorrectsBy Good now)
    (hsub : ∀ t, t.Consistent → now' t → now t) :
    h.CorrectsBy Good now' := by
  induction h generalizing now now' with
  | finish | crash => trivial
  | inspect k ih => exact fun t ht hnow => hh t ht (hsub t ht hnow)
  | perform => exact hh
  | emit o m f k ih => exact fun d => ih d (hh d) hsub
  | emitAndFix o m fix k ih =>
    exact ⟨fun t ht hnow => hh.1 t ht (hsub t ht hnow),
      fun d memory => ih d memory (hh.2 d memory) fun u _ hu => hu.mono hsub⟩
  | note e d k ih => exact ih hh hsub

/-- Programs one after the other: the second one knows what the first one
knew, of an earlier tree. -/
theorem CorrectsBy.andThen {next : σ → Hook σ} (hh : h.CorrectsBy Good now)
    (hnext : ∀ memory, (next memory).CorrectsBy Good (Later now)) :
    (h.andThen next).CorrectsBy Good now := by
  induction h generalizing now with
  | finish memory => exact (hnext memory).mono fun t ht hnow => .of_now ht hnow
  | crash => trivial
  | inspect k ih =>
    intro t ht hnow
    refine ih t (hh t ht hnow) fun memory =>
      (hnext memory).mono fun u _ hu => hu.mono ?_
    rintro _ - rfl
    exact hnow
  | perform => exact hh.elim
  | emit o m f k ih => exact fun d => ih d (hh d) hnext
  | emitAndFix o m fix k ih =>
    exact ⟨hh.1, fun d memory => ih d memory (hh.2 d memory) fun memory =>
      (hnext memory).mono fun u _ hu => hu.later⟩
  | note e d k ih => exact ih hh hnext

/-- A program for each of several things corrects as its parts do. -/
theorem CorrectsBy.each {α : Type} {step : α → σ → Hook σ} {as : List α}
    (memory : σ)
    (hstep : ∀ a ∈ as, ∀ memory, (step a memory).CorrectsBy Good (Later now)) :
    (each step as memory).CorrectsBy Good (Later now) := by
  induction as generalizing memory with
  | nil => trivial
  | cons a as ih =>
    obtain ⟨ha, has⟩ := List.forall_mem_cons.mp hstep
    exact (ha memory).andThen fun memory => (ih memory has).mono
      fun u _ hu => hu.later

end Hook

/-- A bound rule all of whose hooks change the tree only in good
corrections. It is called for nodes that are attached. -/
structure Visitor.CorrectsBy (Good : Tree → String → Fix σ → Prop)
    (v : Visitor σ) : Prop where
  before : ∀ n memory, (v.before n memory).CorrectsBy Good fun t =>
    t.isAttached n = true
  after : ∀ n memory, (v.after n memory).CorrectsBy Good fun t =>
    t.isAttached n = true
  last : ∀ memory, (v.last memory).CorrectsBy Good fun _ => True

/-- A rule that, however often it is made and whatever it is bound to,
changes the tree only in good corrections. -/
def Provider.CorrectsBy (Good : Tree → String → Fix σ → Prop)
    (p : Provider σ) : Prop :=
  ∀ number inst view visitor, p.create number = .made inst →
    (inst.bind view).visitor = .ok visitor →
    visitor.CorrectsBy Good

/-! ## Relations that are kept up -/

/-- What makes a relation between the tree before and the tree after hold
across whole sessions of rules that correct by `Good`, as long as the
messages of what they correct are `safe`. -/
structure Upkeep (Good : Tree → String → Fix σ → Prop) (safe : String → Prop)
    (R : Tree → Tree → Prop) : Prop where
  trans : ∀ {t u v}, R t u → R u v → R t v
  /-- What was done is taken back; new nodes are left on their own. -/
  still : ∀ {t u fresh}, u.forest = t.forest.append fresh → fresh.Scattered →
    u.journal = t.journal → R t u
  /-- The transaction around a call is closed. -/
  closed : ∀ {t u}, t.Consistent → R t.begin u → R t (u.commit t.checkpoint)
  /-- A correction succeeds. -/
  corrected : ∀ {t message fix ops u memory}, t.Consistent →
    Good t message fix → safe message →
    fix.Runs t.begin ops u (.finished memory none) → R t (u.commit t.checkpoint)

/-- Every violation that counts as corrected has a message that is safe. -/
def AllSafe (safe : String → Prop) (vs : List Violation) : Prop :=
  ∀ v ∈ vs, v.corrected = true → safe v.message

theorem AllSafe.of_subset {safe : String → Prop} {vs ws : List Violation}
    (h : AllSafe safe ws) (hsub : vs ⊆ ws) : AllSafe safe vs :=
  fun v hv hc => h v (hsub hv) hc

variable {Good : Tree → String → Fix σ → Prop} {safe : String → Prop}
  {R : Tree → Tree → Prop}

theorem Upkeep.refl (up : Upkeep Good safe R) (t : Tree) : R t t :=
  up.still (Forest.append_nil _).symm trivial rfl

/-! ## One program -/

namespace Tree.Within

variable {b t u : Tree} {fresh : Forest} {fix : Fix σ} {ops : List Op}
  {e : FixEnd σ}

/-- A correction inside a transaction stays inside it. -/
theorem correction (h : Within b fresh t) (hown : fix.KeepsToItself t)
    (hr : fix.Runs t.begin ops u e) :
    ∃ x, x.Scattered ∧ Within b (fresh.append x) u := by
  obtain ⟨x, hx, hscat, -⟩ := h.opened.run (by simp) (hown ops u e hr)
  exact ⟨x, hscat, hr.tree_eq ▸ hx⟩

end Tree.Within

namespace Hook.Runs

variable {h : Hook σ} {s s' : Scene} {ds : List Deed} {e : HookEnd σ}
  {now : Tree → Prop}

/-- What was known of the tree when a correction was begun is known later of
the tree it leaves. -/
theorem later_of_fix {t u v : Tree} {fix : Fix σ} {ops : List Op} {e : FixEnd σ}
    (ht : t.Consistent) (hnow : now t) (hr : fix.Runs t.begin ops u e)
    (hkinds : u.KeepsKinds v) : Later now v := by
  have hrun := Tree.keepsKinds_run ht.begin ops
  rw [← hr.tree_eq] at hrun
  exact ⟨t, ht, hnow,
    ((Tree.KeepsKinds.of_forest_eq rfl).trans hrun).trans hkinds⟩

/-- A program inside a transaction stays inside it. -/
theorem within {b : Tree} {fresh : Forest} (hr : h.Runs policy rule s ds s' e)
    (hh : h.CorrectsBy Good now) (hnow : now s.tree)
    (hin : Tree.Within b fresh s.tree) :
    ∃ x, x.Scattered ∧ Tree.Within b (fresh.append x) s'.tree := by
  -- Along the run, with the nodes created so far. Only corrections touch
  -- the tree.
  induction hr generalizing now fresh with
  | finish | crash | emitCrashed | askCrashed =>
    exact ⟨.nil, trivial, by rwa [Forest.append_nil]⟩
  | inspect _ ih => exact ih (hh _ hin.consistent hnow) rfl hin
  | perform => exact hh.elim
  | note _ ih => exact ih hh hnow hin
  | emit _ _ ih => exact ih (hh _) hnow hin
  | denied _ _ ih => exact ih (hh.2 _ _) (.of_now hin.consistent hnow) hin
  | fixCrashed _ hfix =>
    exact hin.correction (hh.1 _ hin.consistent hnow).1 hfix
  | fixed _ hfix _ ih =>
    obtain ⟨x, hx, hin'⟩ := hin.correction (hh.1 _ hin.consistent hnow).1 hfix
    have hlater := later_of_fix hin.consistent hnow hfix (.of_forest_eq rfl)
    obtain ⟨y, hy, hin''⟩ :=
      ih (hh.2 _ _) hlater (hin'.close hin.inner_checkpoint)
    exact ⟨x.append y, hx.append hy, Forest.append_assoc _ _ _ ▸ hin''⟩
  | @abandoned _ _ _ _ s _ _ _ _ _ _ _ _ hfix _ ih =>
    obtain ⟨x, hx, hin'⟩ := hin.correction (hh.1 _ hin.consistent hnow).1 hfix
    have hkinds := Tree.keepsKinds_rollback hin'.consistent s.tree.checkpoint
    obtain ⟨y, hy, hin''⟩ :=
      ih (hh.2 _ _) (later_of_fix hin.consistent hnow hfix hkinds)
      ((hin'.unwind hin.inner_checkpoint.2).close hin.inner_checkpoint)
    exact ⟨x.append y, hx.append hy, Forest.append_assoc _ _ _ ▸ hin''⟩

/-- A program that ends keeps the relation up, if whatever it is seen to
have corrected is safe. -/
theorem related (up : Upkeep Good safe R) (hr : h.Runs policy rule s ds s' e)
    (hh : h.CorrectsBy Good now) (hnow : now s.tree) (ht : s.tree.Consistent)
    (hend : ∀ reason, e ≠ .crashed reason)
    (hsafe : AllSafe safe s'.violations) : R s.tree s'.tree := by
  -- Along the run. Corrections that succeed are in the relation; those that
  -- are taken back leave at most new nodes that hang nowhere.
  induction hr generalizing now with
  | finish => exact up.refl _
  | crash | emitCrashed | askCrashed | fixCrashed => exact absurd rfl (hend _)
  | inspect _ ih => exact ih (hh _ ht hnow) rfl ht hend hsafe
  | perform => exact hh.elim
  | note _ ih => exact ih hh hnow ht hend hsafe
  | emit _ _ ih => exact ih (hh _) hnow ht hend hsafe
  | denied _ _ ih => exact ih (hh.2 _ _) (.of_now ht hnow) ht hend hsafe
  | @fixed o m _ _ s s' _ u _ _ _ _ hfix hrest ih =>
    -- It counts as corrected in the end, so its message is safe.
    have hm : safe m := by
      obtain ⟨emitted, hs', -⟩ := hrest.reported
      refine hsafe (s.violation rule o m true true) ?_ rfl
      rw [hs']
      exact List.mem_append_left _ (by simp [Scene.answered_violations])
    have hu : u.Consistent := by
      rw [hfix.tree_eq]
      exact ht.begin.run _
    have hlater := later_of_fix ht hnow hfix (.of_forest_eq rfl)
    exact up.trans (up.corrected ht (hh.1 _ ht hnow).2 hm hfix)
      (ih (hh.2 _ _) hlater (hu.close _) hend hsafe)
  | @abandoned _ _ _ _ s _ _ _ _ _ _ _ _ hfix _ ih =>
    have hown := (hh.1 _ ht hnow).1
    obtain ⟨fresh, hin, hscat, -⟩ :=
      (Tree.Within.begin ht).run (by simp) (hown _ _ _ hfix)
    rw [← hfix.tree_eq] at hin
    obtain ⟨hforest, hjournal⟩ := hin.rollback ht
    have hkinds := Tree.keepsKinds_rollback hin.consistent s.tree.checkpoint
    exact up.trans (up.still hforest hscat hjournal)
      (ih (hh.2 _ _) (later_of_fix ht hnow hfix hkinds)
        ((hin.consistent.unwind _).close _) hend hsafe)

end Hook.Runs

/-! ## One call -/

namespace ActiveRule

variable {r : ActiveRule σ} {s : Scene} {phase : Phase} {node : Option NodeId}

theorem hook_correctsBy (hv : r.visitor.CorrectsBy Good) (phase : Phase)
    (node : Option NodeId) :
    (r.hook phase node).CorrectsBy Good fun t =>
      node.all t.isAttached = true := by
  unfold hook
  split
  · exact hv.before _ _
  · exact hv.after _ _
  · exact (hv.last _).mono fun _ _ _ => trivial

theorem correctsBy_invoke (hv : r.visitor.CorrectsBy Good) :
    (r.invoke policy phase node s).1.visitor.CorrectsBy Good := by
  unfold invoke
  split
  · exact ⟨hv.before, hv.after, hv.last⟩
  · exact hv

/-- What a call leaves behind, as long as the rule corrects by `Good`. -/
theorem invoke_upheld (up : Upkeep Good safe R) (hv : r.visitor.CorrectsBy Good)
    (ht : s.tree.Consistent) (hn : node.all s.tree.isAttached = true) :
    (r.invoke policy phase node s).2.tree.Consistent ∧
      s.violations <+: (r.invoke policy phase node s).2.violations ∧
      (AllSafe safe (r.invoke policy phase node s).2.violations →
        R s.tree (r.invoke policy phase node s).2.tree) := by
  obtain ⟨ds, after, e, hr⟩ :=
    (r.hook phase node).exists_runs policy r.id { s with tree := s.tree.begin }
  have hh := hook_correctsBy hv phase node
  obtain ⟨emitted, hemitted, -⟩ := hr.reported
  obtain ⟨fresh, hscat, hin⟩ := hr.within hh hn (Tree.Within.begin ht)
  cases e with
  | finished memory =>
    rw [invoke_of_finish hr]
    refine ⟨hin.consistent.close _, ⟨emitted, hemitted.symm⟩, fun hsafe => ?_⟩
    exact up.closed ht (hr.related up hh hn ht.begin (by simp) hsafe)
  | crashed reason =>
    rw [invoke_of_crash hr]
    refine ⟨(hin.consistent.unwind _).close _,
      ⟨emitted.map Violation.uncorrect, ?_⟩, fun _ => ?_⟩
    · simp only [recover, hemitted, Violation.uncorrectFrom_length]
    · obtain ⟨hforest, hjournal⟩ := hin.rollback ht
      exact up.still hforest hscat hjournal

end ActiveRule

/-! ## A walk -/

/-- What the part of a walk from `w` to `w'` keeps up. -/
structure Upheld (Good : Tree → String → Fix σ → Prop) (safe : String → Prop)
    (R : Tree → Tree → Prop) (w w' : Walk σ) : Prop where
  consistent : w'.tree.Consistent
  rules : ∀ r ∈ w'.rules, r.visitor.CorrectsBy Good
  violations : w.scene.violations <+: w'.scene.violations
  related : AllSafe safe w'.scene.violations → R w.tree w'.tree

namespace Walk

variable {w w' : Walk σ}

/-- What one more turn keeps up. -/
theorem upheld_turn (up : Upkeep Good safe R) (h : Upheld Good safe R w w')
    (t : Turn) :
    Upheld Good safe R w (w'.turn policy t) := by
  rcases turn_cases policy w' t with hturn | ⟨r, hr, hf, hn, hturn⟩
  · rwa [hturn]
  · have hv := h.rules r (List.mem_of_getElem? hr)
    obtain ⟨hcons, hprefix, hrel⟩ :=
      ActiveRule.invoke_upheld up hv h.consistent hn
    rw [hturn]
    refine ⟨hcons, fun r' hr' => ?_, h.violations.trans hprefix,
      fun hsafe => ?_⟩
    · rcases List.mem_or_eq_of_mem_set hr' with hmem | rfl
      · exact h.rules r' hmem
      · exact ActiveRule.correctsBy_invoke hv
    · exact up.trans (h.related (hsafe.of_subset hprefix.subset)) (hrel hsafe)

/-- **A whole walk** keeps up what its corrections keep. -/
theorem upheld_run (up : Upkeep Good safe R)
    (hrules : ∀ r ∈ w.rules, r.visitor.CorrectsBy Good) (ht : w.tree.Consistent)
    {fuel : Nat} (hw : Walk.run policy fuel w = some w') :
    Upheld Good safe R w w' := by
  obtain ⟨occasions, rfl⟩ := run_eq_turns hw
  have hstart : Upheld Good safe R w w :=
    ⟨ht, hrules, List.prefix_refl _, fun _ => up.refl _⟩
  exact turns_induction (P := Upheld Good safe R w) (fun _ t h =>
    upheld_turn up h t) hstart _

end Walk

/-! ## A session -/

theorem Violation.mem_sort {v : Violation} {vs : List Violation} :
    v ∈ Violation.sort vs ↔ v ∈ vs :=
  List.mem_mergeSort

/-- **What each correction keeps, a visit keeps,** if all that counts as
corrected is safe. -/
theorem Roster.upheld_visit (up : Upkeep Good safe R) {fuel : Nat}
    {asked : List Asked} {roster : Roster σ}
    (hrules : ∀ r ∈ roster.rules, r.visitor.CorrectsBy Good) {t : Tree}
    (ht : t.Consistent) {v : Visited}
    (hv : roster.visit fuel policy asked t = some v) :
    v.tree.Consistent ∧ (AllSafe safe v.outcome.violations → R t v.tree) := by
  unfold Roster.visit at hv
  split at hv
  · cases hv
    exact ⟨ht, fun _ => up.refl t⟩
  · obtain ⟨w, hw, rfl⟩ := Option.map_eq_some_iff.mp hv
    have h := Walk.upheld_run
      (w := { rules := roster.rules, scene := { tree := t, asked } }) up
      hrules ht hw
    exact ⟨h.consistent, fun hsafe => h.related fun x hx =>
      hsafe x (Violation.mem_sort.mpr hx)⟩

/-- What holds of every visitor that some providers can give holds of every
rule of their roster. -/
theorem Assembly.visitors_build {P : Visitor σ → Prop} {s : Settings}
    {ps : List (Provider σ)}
    (hps : ∀ p ∈ ps, ∀ number inst view visitor, p.create number = .made inst →
      (inst.bind view).visitor = .ok visitor → P visitor)
    {roster final : Roster σ} {made : MadeCounts} {notes : List Note}
    {fragile : Bool} (hroster : ∀ r ∈ roster.rules, P r.visitor)
    (h : (Assembly.build s ps roster made notes fragile).roster = .ok final) :
    ∀ r ∈ final.rules, P r.visitor := by
  -- By induction on the rules still to be made.
  induction ps generalizing roster made notes fragile with
  | nil =>
    cases h
    exact hroster
  | cons p ps ih =>
    obtain ⟨hp, hps⟩ := List.forall_mem_cons.mp hps
    simp only [Assembly.build] at h
    split at h
    · cases h
    · cases h
    · next inst hmade =>
      split at h
      · next visitor hbound =>
        refine ih hps (fun r hr => ?_) h
        rcases List.mem_append.mp hr with hr | hr
        · exact hroster r hr
        · rw [List.mem_singleton.mp hr]
          exact hp _ inst _ visitor hmade hbound
      · split at h
        · cases h
          exact fun r hr => nomatch hr
        · refine ih hps ?_ h
          exact hroster

theorem Assembly.correctsBy_build {s : Settings} {ps : List (Provider σ)}
    (hps : ∀ p ∈ ps, p.CorrectsBy Good) {roster final : Roster σ}
    {made : MadeCounts} {notes : List Note} {fragile : Bool}
    (hroster : ∀ r ∈ roster.rules, r.visitor.CorrectsBy Good)
    (h : (Assembly.build s ps roster made notes fragile).roster = .ok final) :
    ∀ r ∈ final.rules, r.visitor.CorrectsBy Good :=
  visitors_build hps hroster h

namespace Session

variable {w w' : Session σ} {s : Settings} {providers : List (Provider σ)}
  {fuel : Nat}

/-- A visit of a file fails before it begins, or is the visit of a roster of
the given rules. -/
theorem pass_cases {r : Except EngineError Outcome}
    (h : w.pass fuel policy s providers = some (w', r)) :
    (∃ e, r = .error e) ∧ w'.tree = w.tree ∨
      ∃ roster v, (Assembly.build s providers {} w.engine.made
        [] false).roster = .ok roster ∧
        roster.visit fuel policy w.asked w.tree = some v ∧ w'.tree = v.tree ∧
          r = .ok v.outcome := by
  simp only [pass, assemble] at h
  cases hroster : (Assembly.build s providers {} w.engine.made [] false).roster
      with
  | error e =>
    simp only [hroster, Except.mapError] at h
    cases h
    exact Or.inl ⟨⟨_, rfl⟩, rfl⟩
  | ok roster =>
    simp only [hroster, Except.mapError, visit, Option.map_map,
      Option.map_eq_some_iff,
      Function.comp_apply, Prod.mk.injEq] at h
    obtain ⟨v, hv, rfl, rfl⟩ := h
    exact Or.inr ⟨roster, v, rfl, hv, rfl, rfl⟩

/-- The same for making the rules and visiting. -/
theorem upheld_pass (up : Upkeep Good safe R)
    (hp : ∀ p ∈ providers, p.CorrectsBy Good) (ht : w.tree.Consistent)
    {r : Except EngineError Outcome}
    (h : w.pass fuel policy s providers = some (w', r)) :
    w'.tree.Consistent ∧ ((∀ o, r = .ok o → AllSafe safe o.violations) →
      R w.tree w'.tree) := by
  rcases pass_cases h with ⟨-, htree⟩ | ⟨roster, v, hroster, hv, htree, rfl⟩
  · rw [htree]
    exact ⟨ht, fun _ => up.refl _⟩
  · obtain ⟨hcons, hrel⟩ := Roster.upheld_visit up
      (Assembly.correctsBy_build hp (by simp) hroster) ht hv
    rw [htree]
    exact ⟨hcons, fun hsafe => hrel (hsafe v.outcome rfl)⟩

/-- Nothing unsafe was corrected in some visits: nothing is unsafe, or it
would be in the tally. -/
def SafeTally (safe : String → Prop) (r : Except EngineError Tally) : Prop :=
  (∀ m, safe m) ∨ ∃ tally, r = .ok tally ∧ AllSafe safe tally.corrected

/-- A tally only grows. -/
theorem corrected_subset_passes {left : Nat} {tally final : Tally}
    (h : w.passes fuel policy s providers left tally = some (w', .ok final)) :
    tally.corrected ⊆ final.corrected := by
  induction left generalizing w tally with
  | zero =>
    cases h
    exact List.Subset.refl _
  | succ left ih =>
    simp only [passes] at h
    have hadd : ∀ o, tally.corrected ⊆ (tally.add o).corrected :=
      fun o => List.subset_append_left _ _
    split at h
    · cases h
    · cases h
    · split at h
      · exact List.Subset.trans (hadd _) (ih h)
      · cases h
        exact hadd _

/-- And for all visits of formatting. -/
theorem upheld_passes (up : Upkeep Good safe R)
    (hp : ∀ p ∈ providers, p.CorrectsBy Good) (ht : w.tree.Consistent)
    {left : Nat} {tally : Tally} {r : Except EngineError Tally}
    (h : w.passes fuel policy s providers left tally = some (w', r)) :
    w'.tree.Consistent ∧ (SafeTally safe r → R w.tree w'.tree) := by
  -- By induction on the visits that are left: each one keeps it, and so do
  -- the ones before.
  induction left generalizing w tally with
  | zero =>
    cases h
    exact ⟨ht, fun _ => up.refl _⟩
  | succ left ih =>
    simp only [passes] at h
    split at h
    · cases h
    · next w₁ e hpass =>
      cases h
      obtain ⟨hcons, hrel⟩ := upheld_pass up hp ht hpass
      exact ⟨hcons, fun _ => hrel fun o ho => nomatch ho⟩
    · next w₁ o hpass =>
      obtain ⟨hcons, hrel⟩ := upheld_pass up hp ht hpass
      -- what this visit corrected is in the final tally
      have hone : ∀ final : Tally, (tally.add o).corrected ⊆ final.corrected →
          AllSafe safe final.corrected → AllSafe safe o.violations := by
        intro final hsub hsafe v hv hc
        refine hsafe v (hsub (List.mem_append_right _ ?_)) hc
        exact List.mem_filter.mpr ⟨hv, hc⟩
      split at h
      · obtain ⟨hcons', hrel'⟩ := ih hcons h
        refine ⟨hcons', fun hsafe =>
          up.trans (hrel fun o' ho' => ?_) (hrel' hsafe)⟩
        cases ho'
        rcases hsafe with hall | ⟨final, rfl, hfinal⟩
        · exact fun v _ _ => hall v.message
        · exact hone final (corrected_subset_passes h) hfinal
      · cases h
        refine ⟨hcons, fun hsafe => hrel fun o' ho' => ?_⟩
        cases ho'
        rcases hsafe with hall | ⟨final, hfinal, hsafe⟩
        · exact fun v _ _ => hall v.message
        · cases hfinal
          exact hone _ (List.Subset.refl _) hsafe

/-- Rules run only if they are in the registry. -/
theorem find?_of_order {recreate : Bool}
    (h : (w.order s recreate).2 = .ok providers) :
    ∀ p ∈ providers, ∃ id, w.engine.registry.find? id = some p := by
  intro p hp
  simp only [order, Engine.order] at h
  cases hres :
    (w.engine.cache.resolve w.engine.registry.id w.engine.registry.infos
      (w.engine.registry.disabled s) recreate).2.result with
  | error e => simp [hres, Except.map, Except.mapError] at h
  | ok infos =>
    simp only [hres, Except.map, Except.mapError, Except.ok.injEq] at h
    rw [← h, List.mem_filterMap] at hp
    obtain ⟨i, -, hi⟩ := hp
    exact ⟨i.id, hi⟩

/-- What stands before the first visit: the rules that run are known, and
the file is as it was. -/
theorem order_cases {recreate : Bool}
    {r : Except EngineError (List (Provider σ))}
    (h : w.order s recreate = (w', r)) :
    w'.tree = w.tree ∧ ∀ providers, r = .ok providers → ∀ p ∈ providers,
      ∃ id, w.engine.registry.find? id = some p := by
  refine ⟨?_, fun providers hr => find?_of_order (by rw [h, hr])⟩
  exact congrArg (fun p => p.1.tree) h.symm

/-- **Formatting a file** keeps up what the corrections of the rules keep,
if nothing unsafe is among the violations that count as corrected. -/
theorem upheld_format (up : Upkeep Good safe R)
    (hreg : ∀ id p, w.engine.registry.find? id = some p → p.CorrectsBy Good)
    (ht : w.tree.Consistent) {r : Except EngineError Formatted}
    (h : w.format fuel policy s = some (w', r)) :
    ((∀ m, safe m) → R w.tree w'.tree) ∧
      ∀ f, r = .ok f → ∃ tally : Tally, f = tally.formatted w'.tree ∧
        (AllSafe safe tally.corrected → R w.tree w'.tree) := by
  unfold format at h
  split at h
  · next w₁ e horder =>
    have htree := (order_cases horder).1
    cases h
    rw [htree]
    exact ⟨fun _ => up.refl _, fun f hf => nomatch hf⟩
  · next w₁ providers horder =>
    obtain ⟨htree, hfound⟩ := order_cases horder
    have hp : ∀ p ∈ providers, p.CorrectsBy Good := by
      intro p hp
      obtain ⟨id, hid⟩ := hfound providers rfl p hp
      exact hreg id p hid
    -- The order is worked out without touching the tree; the rest is the
    -- passes.
    obtain ⟨⟨w₂, r₂⟩, hpasses, hfinal⟩ := Option.map_eq_some_iff.mp h
    cases hfinal
    have hrel := (upheld_passes up hp (htree ▸ ht) hpasses).2
    rw [htree] at hrel
    refine ⟨fun hall => hrel (Or.inl hall), fun f hf => ?_⟩
    cases r₂ with
    | error e => cases hf
    | ok tally =>
      cases hf
      exact ⟨tally, rfl, fun hsafe => hrel (Or.inr ⟨tally, rfl, hsafe⟩)⟩

end Session

end TreeLint
