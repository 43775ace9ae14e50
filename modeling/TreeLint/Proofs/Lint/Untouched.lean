import TreeLint.Proofs.Lint.Upkeep
import TreeLint.Proofs.Tree.Document

/-!
# Nothing corrected, nothing changed

Rules that change the tree only in corrections leave it alone unless a
violation counts as corrected. Corrections that fail are taken back, and so
are those of a call that crashes afterwards; both leave no violation that
counts as corrected. Nodes created on the way stay behind the others, on
their own (`LeftAlone`), so nodes and journal are as they were while the
count of nodes may be higher.

If nothing may be corrected at all, no correction is even begun, and the
tree is the very same one (`tree_visit_of_denied`).
`untouched_unless_corrected` has both, for single visits, linting and
formatting.

Specification, §8 (a correction that is rejected leaves no trace) and §14
(linting corrects nothing).
-/

namespace TreeLint

variable {σ : Type} {policy : Policy}

/-- Any correction at all is good. -/
def AnyFix (_ : Tree) (_ : String) (_ : Fix σ) : Prop := True

/-! ## Left alone -/

namespace Tree

variable {t u : Tree} {n : NodeId} {x : Forest}

/-- The forest of `t` with new nodes on their own behind it, and the journal
of `t`. -/
def LeftAlone (t u : Tree) : Prop :=
  (∃ fresh : Forest, fresh.Scattered ∧ u.forest = t.forest.append fresh) ∧
    u.journal = t.journal

theorem subtree_of_append (hf : u.forest = t.forest.append x)
    (hn : t.contains n = true) :
    u.subtree n = t.subtree n := by
  obtain ⟨s, hs⟩ := Forest.exists_subtree (contains_iff_mem.mp hn)
  simp [subtree, hf, Forest.subtree?_append, hs]

namespace LeftAlone

theorem sameNode (h : LeftAlone t u) (ht : t.Sound) (hn : n < t.count) :
    SameNode t u n := by
  obtain ⟨⟨fresh, -, hf⟩, -⟩ := h
  exact sameNode_of_append hf (ht.contains_iff.mpr hn)

theorem document (h : LeftAlone t u) (ht : t.Sound) :
    u.document = t.document := by
  obtain ⟨⟨fresh, -, hf⟩, -⟩ := h
  exact subtree_of_append hf ht.linked.root_exists

theorem toText_eq (h : LeftAlone t u) (ht : t.Sound) : u.toText = t.toText :=
  congrArg Forest.text (h.document ht)

end LeftAlone

/-- Closing a transaction in which nothing was recorded gives the journal
there was before. -/
theorem journal_close_begin (h : t.Consistent)
    (hu : u.journal = t.begin.journal) :
    (u.close t.checkpoint).journal = t.journal := by
  have hmarks : u.journal.marks.drop
      (u.journal.marks.length - t.checkpoint.depth) = t.journal.marks := by
    simp [hu, Tree.begin, checkpoint]
  have hentries : u.journal.entries = t.journal.entries := by rw [hu]; rfl
  have hkeep : (if t.journal.marks.isEmpty then [] else t.journal.entries) =
      t.journal.entries := by
    split
    · next hm => exact (h.idle (List.isEmpty_iff.mp hm)).symm
    · rfl
  simp only [close, hmarks, hentries, hkeep]

theorem commit_begin (h : t.Consistent) : t.begin.commit t.checkpoint = t := by
  have hj := journal_close_begin h (u := t.begin) rfl
  calc t.begin.close t.checkpoint
      = { t with journal := (t.begin.close t.checkpoint).journal } := rfl
    _ = t := by rw [hj]

/-- Opening a transaction and rolling back does nothing. -/
theorem rollback_begin (h : t.Consistent) :
    t.begin.rollback t.checkpoint = t := by
  have hnone : t.begin.journal.entries.length - t.checkpoint.mark = 0 := by
    simp [Tree.begin, checkpoint]
  have hunwind : unwind t.checkpoint.mark t.begin.journal.entries t.begin =
      t.begin := by
    rw [unwind_eq, hnone]
    rfl
  rw [rollback, hunwind]
  exact commit_begin h

end Tree

/-- **Where no violation counts as corrected all nodes are left alone.** No
message is safe here, so the case of a correction is void. -/
theorem upkeep_leftAlone {Good : Tree → String → Fix σ → Prop} :
    Upkeep Good (fun _ => False) Tree.LeftAlone where
  trans := by
    rintro t u v ⟨⟨x, hx, hu⟩, hj⟩ ⟨⟨y, hy, hv⟩, hj'⟩
    exact ⟨⟨x.append y, hx.append hy, by rw [hv, hu, Forest.append_assoc]⟩,
      hj'.trans hj⟩
  still hf hscat hj := ⟨⟨_, hscat, hf⟩, hj⟩
  closed := by
    rintro t u ht ⟨hf, hj⟩
    exact ⟨hf, Tree.journal_close_begin ht hj⟩
  corrected _ _ hsafe := hsafe.elim

/-! ## Nothing may be corrected -/

section Denied

variable {rule : RuleId} {Good : Tree → String → Fix σ → Prop}
  {now : Tree → Prop}

/-- A policy that never allows a correction. -/
def Policy.Denies (policy : Policy) : Prop :=
  ∀ asked rule offset, policy asked rule offset ≠ .answer true

/-- The policy of linting allows no correction (specification, §14). -/
theorem Policy.denies_none : Policy.none.Denies := by
  intro asked rule offset h
  simp [Policy.none, Policy.ofTest] at h

/-- No correction is begun. -/
theorem Hook.Runs.tree_of_denied {h : Hook σ} {s s' : Scene} {ds : List Deed}
    {e : HookEnd σ} (hdeny : policy.Denies) (hr : h.Runs policy rule s ds s' e)
    (hh : h.CorrectsBy Good now) (hnow : now s.tree) (ht : s.tree.Consistent) :
    s'.tree = s.tree := by
  induction hr generalizing now with
  | finish | crash | emitCrashed | askCrashed => rfl
  | inspect _ ih => exact ih (hh _ ht hnow) rfl ht
  | perform => exact hh.elim
  | note _ ih => exact ih hh hnow ht
  | emit _ _ ih => exact ih (hh _) hnow ht
  | denied _ _ ih => exact ih (hh.2 _ _) (.of_now ht hnow) ht
  | fixCrashed hask | fixed hask | abandoned hask =>
    exact absurd hask (hdeny _ _ _)

/-- Under a policy that allows nothing a call leaves the tree as it is. -/
theorem ActiveRule.tree_invoke_of_denied {r : ActiveRule σ} {s : Scene}
    {phase : Phase} {node : Option NodeId} (hdeny : policy.Denies)
    (hv : r.visitor.CorrectsBy Good) (ht : s.tree.Consistent)
    (hn : node.all s.tree.isAttached = true) :
    (r.invoke policy phase node s).2.tree = s.tree := by
  obtain ⟨ds, after, e, hr⟩ :=
    (r.hook phase node).exists_runs policy r.id { s with tree := s.tree.begin }
  have htree := hr.tree_of_denied hdeny
    (hook_correctsBy hv phase node) hn ht.begin
  cases e with
  | finished memory =>
    rw [invoke_of_finish hr]
    simp only [htree]
    exact Tree.commit_begin ht
  | crashed reason =>
    rw [invoke_of_crash hr]
    simp only [recover, htree]
    exact Tree.rollback_begin ht

/-- **Run.** So does a whole walk. -/
theorem Walk.tree_run_of_denied {w w' : Walk σ} {fuel : Nat}
    (hdeny : policy.Denies) (hrules : ∀ r ∈ w.rules, r.visitor.CorrectsBy Good)
    (ht : w.tree.Consistent) (hw : Walk.run policy fuel w = some w') :
    w'.tree = w.tree := by
  obtain ⟨occasions, rfl⟩ := run_eq_turns hw
  suffices h : (w.turns policy (Turn.rounds w.rules.length occasions)).tree =
      w.tree ∧
      ∀ r ∈ (w.turns policy (Turn.rounds w.rules.length occasions)).rules,
        r.visitor.CorrectsBy Good from h.1
  -- A walk is a sequence of turns; that rules correct as they promise has
  -- to be carried along.
  refine turns_induction (P := fun v => v.tree = w.tree ∧ ∀ r ∈ v.rules,
    r.visitor.CorrectsBy Good)
    (fun v t hv => ?_) ⟨rfl, hrules⟩ _
  obtain ⟨htree, hrules⟩ := hv
  rcases turn_cases policy v t with hturn | ⟨r, hr, hf, hn, hturn⟩
  · rw [hturn]
    exact ⟨htree, hrules⟩
  · have hr' := hrules r (List.mem_of_getElem? hr)
    have hcons : v.scene.tree.Consistent := by
      rw [show v.scene.tree = w.tree from htree]
      exact ht
    rw [hturn]
    refine ⟨(ActiveRule.tree_invoke_of_denied hdeny hr' hcons hn).trans htree,
      fun r' hmem => ?_⟩
    rcases List.mem_or_eq_of_mem_set hmem with hmem | rfl
    · exact hrules r' hmem
    · exact ActiveRule.correctsBy_invoke hr'

/-- And so does a visit. -/
theorem Roster.tree_visit_of_denied {fuel : Nat} {asked : List Asked}
    {roster : Roster σ} (hdeny : policy.Denies)
    (hrules : ∀ r ∈ roster.rules, r.visitor.CorrectsBy Good) {t : Tree}
    (ht : t.Consistent) {v : Visited}
    (hv : roster.visit fuel policy asked t = some v) : v.tree = t := by
  unfold Roster.visit at hv
  split at hv
  · cases hv
    rfl
  · obtain ⟨w, hw, rfl⟩ := Option.map_eq_some_iff.mp hv
    exact Walk.tree_run_of_denied
      (w := { rules := roster.rules, scene := { tree := t, asked } })
      hdeny hrules ht hw

/-- Linting asks for no correction, so nothing at all is done to the tree. -/
theorem Session.tree_lint {w w' : Session σ} {s : Settings} {fuel : Nat}
    (hreg : ∀ id p, w.engine.registry.find? id = some p → p.CorrectsBy Good)
    (ht : w.tree.Consistent) {r : Except EngineError Outcome}
    (h : w.lint fuel s = some (w', r)) : w'.tree = w.tree := by
  unfold lint at h
  split at h
  · next w₁ e horder =>
    cases h
    exact (order_cases horder).1
  · next w₁ providers horder =>
    obtain ⟨htree, hfound⟩ := order_cases horder
    rw [← htree] at ht ⊢
    rcases pass_cases h with ⟨-, hsame⟩ | ⟨roster, v, hroster, hv, hsame, -⟩
    · exact hsame
    · have hp : ∀ p ∈ providers, p.CorrectsBy Good := by
        intro p hp
        obtain ⟨id, hid⟩ := hfound providers rfl p hp
        exact hreg id p hid
      rw [hsame]
      exact Roster.tree_visit_of_denied Policy.denies_none
        (Assembly.correctsBy_build hp (by simp) hroster) ht hv

end Denied

/-! ## Visiting, linting and formatting -/

/-- **Nothing corrected, nothing changed.** Let the rules change the tree
only in corrections, which may do anything, fail anywhere and crash, and use
only checkpoints of their own. A visit after which no violation counts as
corrected leaves every node as it was, and the open transactions too.
Linting leaves the tree exactly as it was. Formatting that comes up with no
new text leaves the text as it was. Specification, §4.3, §8 and §14. -/
theorem untouched_unless_corrected (w : Session σ) (roster : Roster σ)
    (ht : w.tree.Reachable)
    (hreg : ∀ id p, w.engine.registry.find? id = some p → p.CorrectsBy AnyFix)
    (hroster : ∀ r ∈ roster.rules, r.visitor.CorrectsBy AnyFix) (fuel : Nat)
    (policy : Policy) (s : Settings) :
    (∀ asked v, roster.visit fuel policy asked w.tree = some v →
        (∀ x ∈ v.outcome.violations, x.corrected = false) →
        (∀ n, n < w.tree.count → Tree.SameNode w.tree v.tree n) ∧
          v.tree.journal = w.tree.journal) ∧
      (∀ w' r, w.lint fuel s = some (w', r) → w'.tree = w.tree) ∧
      ∀ w' f, w.format fuel policy s = some (w', .ok f) → f.text = none →
        w'.tree.toText = w.tree.toText := by
  have hcons := ht.consistent
  refine ⟨fun asked v hv hnone => ?_, fun w' r h =>
    Session.tree_lint hreg hcons h, fun w' f h htext => ?_⟩
  · have hsafe : AllSafe (fun _ => False) v.outcome.violations := by
      intro x hx hc
      simp [hnone x hx] at hc
    have halone :=
      (Roster.upheld_visit upkeep_leftAlone hroster hcons hv).2 hsafe
    exact ⟨fun n hn => halone.sameNode hcons.sound hn, halone.2⟩
  · obtain ⟨tally, rfl, hrel⟩ :=
      (Session.upheld_format upkeep_leftAlone hreg hcons h).2 f rfl
    have hempty : tally.corrected = [] := by
      simp only [Tally.formatted] at htext
      split at htext
      · next he => exact List.isEmpty_iff.mp he
      · cases htext
    refine Tree.LeftAlone.toText_eq (hrel ?_) hcons.sound
    rw [hempty]
    exact fun v hv => nomatch hv

/-- A rule that breaks the line before every node, and crashes when it has
done so. -/
def breaker : Visitor Unit where
  memory := ()
  before n _ := .emitAndFix 0 "line break" (.ofOps () [.spaceBefore n "\n"])
    fun _ _ => .crash "done"

theorem breaker_correctsBy : breaker.CorrectsBy AnyFix where
  before n _ := ⟨fun t _ _ =>
    ⟨Fix.keepsToItself_ofOps () (by simp [Op.checkpoint?]) t, trivial⟩,
    fun _ _ => trivial⟩
  after _ _ := trivial
  last _ := trivial

/-- The rule above is given a file with one token. The white space it
creates stays behind, on its own. -/
theorem untouched_unless_corrected_breaker :
    let t := Tree.build .file [.start .property, .token .identifier "a"]
    let w : Session Unit :=
      { engine := { registry := ⟨0,
        [("b", .ofVisitor { id := "b" } fun _ => breaker)]⟩ }, tree := t }
    ∃ v, Roster.visit 9 Policy.all [] ⟨[{ id := "b", visitor := breaker }],
      []⟩ t = some v ∧
      v.outcome.violations.map Violation.corrected = [false] ∧
        v.tree.count = t.count + 1 ∧
      Tree.SameNode t v.tree 1 ∧ v.tree.journal = t.journal ∧
      ∀ w' r, w.lint 9 {} = some (w', r) → w'.tree = t := by
  intro t w
  have hfile :
      (Tree.build .file [.start .property, .token .identifier "a"]).Reachable :=
    ⟨.file, [.start .property, .token .identifier "a"], [], rfl⟩
  have hreg : ∀ id p, w.engine.registry.find? id = some p →
      p.CorrectsBy AnyFix := by
    intro id p hp number inst view visitor hmade hbound
    simp only [w, Registry.find?, NameMap.find?] at hp
    split at hp
    · cases hp
      cases hmade
      cases hbound
      exact breaker_correctsBy
    · cases hp
  have h := untouched_unless_corrected w ⟨[{ id := "b", visitor := breaker }],
    []⟩ hfile hreg
    (by simpa using breaker_correctsBy) 9 Policy.all {}
  obtain ⟨v, hv⟩ : ∃ v, Roster.visit 9 Policy.all []
      ⟨[{ id := "b", visitor := breaker }], []⟩ t = some v :=
    Option.isSome_iff_exists.mp (by decide)
  have hflags : v.outcome.violations.map Violation.corrected = [false] := by
    have hall :
        ((Roster.visit 9 Policy.all [] ⟨[{ id := "b", visitor := breaker }],
          []⟩ t).map fun v =>
      v.outcome.violations.map Violation.corrected) = some [false] := by
        decide +kernel
    simpa [hv] using hall
  have hcount : v.tree.count = t.count + 1 := by
    have hall :
        ((Roster.visit 9 Policy.all [] ⟨[{ id := "b", visitor := breaker }],
          []⟩ t).map fun v =>
      v.tree.count) = some (t.count + 1) := by decide +kernel
    simpa [hv] using hall
  have hnone : ∀ x ∈ v.outcome.violations, x.corrected = false := by
    intro x hx
    have hmem := List.mem_map_of_mem (f := Violation.corrected) hx
    simpa [hflags] using hmem
  have hvisit := h.1 [] v hv hnone
  exact ⟨v, hv, hflags, hcount, hvisit.1 1 (by decide), hvisit.2, h.2.1⟩

end TreeLint
