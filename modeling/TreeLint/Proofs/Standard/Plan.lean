import TreeLint.Proofs.Lint.Twice
import TreeLint.Proofs.Standard.Corrections
import TreeLint.Proofs.Tree.Success

/-!
# Corrections that are decided by the document

A correction is a list of edits, and whether one edit succeeds depends on
what the edits before it did. The corrections of the standard rules are of a
shape (`Plan`) that makes the answer a matter of the document there was at
the start: a node is moved first if at all, then white space is put next to
nodes, and a node is detached last. Up to there every node of the document
stays attached, so that each edit succeeds exactly if it was `Ready` from
the start (`Plan.succeeds_iff`).

So a rule that reports such a correction can be run again on any tree with
that document (`Plan.repeatable_correct`).

Specification, §13.
-/

namespace TreeLint

variable {σ : Type} {t v : Tree} {ops : List Op}

/-! ## Lists of edits that succeed -/

theorem Edited.not_failed_iff {e : Edited} :
    (∀ error, e.reply ≠ .failed error) ↔ e.failure = none := by
  refine ⟨Edited.failure_eq_none, fun h error => ?_⟩
  simp [Edited.reply, h]

/-- An edit and those after it. -/
theorem Op.succeed_cons_iff {op : Op} {e : Edited}
    (he : op.apply v = (e.tree, e.reply)) :
    (∃ u, Op.Succeed (op :: ops) v u) ↔ e.failure = none ∧
      ∃ u, Op.Succeed ops e.tree u := by
  rw [← Edited.not_failed_iff]
  constructor
  · rintro ⟨u, h⟩
    cases h with
    | cons hok hrest =>
      rw [he] at hok hrest
      exact ⟨hok, u, hrest⟩
  · rintro ⟨hok, u, hrest⟩
    refine ⟨u, .cons ?_ ?_⟩ <;> rwa [he]

/-- Operations that are carried out until one fails always come to an end,
without a failure if all of them succeed. -/
theorem Fix.runs_ofOps (memory : σ) (ops : List Op) (v : Tree) :
    ∃ os u failure, (Fix.ofOps memory ops).Runs v os u
      (.finished memory failure) ∧
      (failure = none ↔ ∃ u, Op.Succeed ops v u) := by
  -- Along the operations; the first one that fails ends the correction.
  induction ops generalizing v with
  | nil => exact ⟨[], v, none, .finish memory none, iff_of_true rfl ⟨v, .nil v⟩⟩
  | cons op ops ih =>
    by_cases hfail : ∃ error, (op.apply v).2 = .failed error
    · obtain ⟨error, hreply⟩ := hfail
      refine ⟨[op], (op.apply v).1, some error, .perform ?_,
        iff_of_false (by simp) ?_⟩
      · rw [hreply]
        exact .finish memory (some error)
      · rintro ⟨u, h⟩
        cases h with
        | cons hok _ => exact hok error hreply
    · have hok : ∀ error, (op.apply v).2 ≠ .failed error := fun error h =>
        hfail ⟨error, h⟩
      obtain ⟨os, u, failure, hruns, hiff⟩ := ih (op.apply v).1
      refine ⟨op :: os, u, failure, .perform ?_, hiff.trans ?_⟩
      · cases hreply : (op.apply v).2 with
        | failed error => exact absurd hreply (hok error)
        | done | created | opened => exact hruns
      · constructor
        · rintro ⟨u, h⟩
          exact ⟨u, .cons hok h⟩
        · rintro ⟨u, h⟩
          cases h with
          | cons _ h => exact ⟨u, h⟩

/-! ## Plans -/

/-- What the document has to be like for an edit to succeed, of those that
corrections are made of. -/
def Op.Ready (t : Tree) : Op → Prop
  | .detach n | .spaceBefore n _ | .spaceAfter n _ => n ≠ Tree.root
  | .replaceText n _ => t.isLeaf n = true
  | .moveAfter n a | .moveBefore n a =>
    n ≠ Tree.root ∧ a ≠ Tree.root ∧ a ∉ t.descendants n
  | _ => False

/-- White space is put next to nodes of the document, and then a node may be
detached. -/
inductive Plain (t : Tree) : List Op → Prop
  | nil : Plain t []
  | detach {n : NodeId} (hn : n ∈ t.document.ids) : Plain t [.detach n]
  | spaceBefore {n : NodeId} {x : String} {ops : List Op}
      (hn : n ∈ t.document.ids) (hx : x.isEmpty = false) (rest : Plain t ops) :
      Plain t (.spaceBefore n x :: ops)
  | spaceAfter {n : NodeId} {x : String} {ops : List Op}
      (hn : n ∈ t.document.ids) (hx : x.isEmpty = false) (rest : Plain t ops) :
      Plain t (.spaceAfter n x :: ops)

/-- The same after a node of the document was moved next to another one, or
new text for one token. -/
inductive Plan (t : Tree) : List Op → Prop
  | plain {ops : List Op} (h : Plain t ops) : Plan t ops
  | replaceText {n : NodeId} (x : String) (hn : n ∈ t.document.ids) :
    Plan t [.replaceText n x]
  | moveAfter {n a : NodeId} {ops : List Op} (hn : n ∈ t.document.ids)
      (ha : a ∈ t.document.ids) (rest : Plain t ops) :
      Plan t (.moveAfter n a :: ops)
  | moveBefore {n a : NodeId} {ops : List Op} (hn : n ∈ t.document.ids)
      (ha : a ∈ t.document.ids) (rest : Plain t ops) :
      Plan t (.moveBefore n a :: ops)

theorem Plain.detach? {o : Option NodeId}
    (h : ∀ n, o = some n → n ∈ t.document.ids) :
    Plain t (o.map Op.detach).toList := by
  cases o with
  | none => exact .nil
  | some n => exact .detach (h n rfl)

theorem Plain.checkpoint? (h : Plain t ops) :
    ∀ op ∈ ops, op.checkpoint? = none := by
  induction h with
  | nil => simp
  | detach => simp [Op.checkpoint?]
  | spaceBefore _ _ _ ih | spaceAfter _ _ _ ih =>
    exact List.forall_mem_cons.mpr ⟨rfl, ih⟩

theorem Plan.checkpoint? (h : Plan t ops) :
    ∀ op ∈ ops, op.checkpoint? = none := by
  cases h with
  | plain h => exact h.checkpoint?
  | replaceText => simp [Op.checkpoint?]
  | moveAfter _ _ rest | moveBefore _ _ rest =>
    exact List.forall_mem_cons.mpr ⟨rfl, rest.checkpoint?⟩

/-- An edit that succeeds exactly if it is ready, and leaves those after it
to do the same. -/
theorem Op.succeed_cons_iff_ready {op : Op} {e : Edited}
    (he : op.apply v = (e.tree, e.reply))
    (hready : e.failure = none ↔ op.Ready t)
    (hrest : e.failure = none →
      ((∃ u, Op.Succeed ops e.tree u) ↔ ∀ op ∈ ops, op.Ready t)) :
    (∃ u, Op.Succeed (op :: ops) v u) ↔ ∀ op' ∈ op :: ops, op'.Ready t := by
  rw [Op.succeed_cons_iff he, List.forall_mem_cons, ← hready]
  exact and_congr_right hrest

theorem Op.succeed_nil_iff_ready :
    (∃ u, Op.Succeed [] v u) ↔ ∀ op ∈ ([] : List Op), op.Ready t :=
  iff_of_true ⟨v, .nil v⟩ (by simp)

/-- Putting white space somewhere keeps the nodes of the document attached,
which is all the next edit asks for. -/
theorem Plain.succeeds_iff (h : Plain t ops) (hv : v.Consistent)
    (hsub : t.document.ids ⊆ v.document.ids) :
    (∃ u, Op.Succeed ops v u) ↔ ∀ op ∈ ops, op.Ready t := by
  induction h generalizing v with
  | nil => exact Op.succeed_nil_iff_ready
  | @detach n hn =>
    refine Op.succeed_cons_iff_ready (e := v.detach n) rfl ?_ fun _ =>
      Op.succeed_nil_iff_ready
    exact Tree.detach_succeeds_iff hv.sound (hsub hn)
  | @spaceBefore n x ops hn hx _ ih =>
    refine Op.succeed_cons_iff_ready (e := v.spaceBefore n x) rfl ?_ fun _ =>
      ih (hv.apply (.spaceBefore n x)) ?_
    · exact Tree.spaceBefore_succeeds_iff hv.sound (hsub hn) hx
    · exact List.Subset.trans hsub
        (Tree.document_subset_spaceBefore hv.sound n hx)
  | @spaceAfter n x ops hn hx _ ih =>
    refine Op.succeed_cons_iff_ready (e := v.spaceAfter n x) rfl ?_ fun _ =>
      ih (hv.apply (.spaceAfter n x)) ?_
    · exact Tree.spaceAfter_succeeds_iff hv.sound (hsub hn) hx
    · exact List.Subset.trans hsub
        (Tree.document_subset_spaceAfter hv.sound n hx)

/-- **A plan succeeds exactly if all of it was ready** in the document there
was at the start. -/
theorem Plan.succeeds_iff (h : Plan t ops) (hv : v.Consistent)
    (s : t.SameFile v) :
    (∃ u, Op.Succeed ops v u) ↔ ∀ op ∈ ops, op.Ready t := by
  have hsub : t.document.ids ⊆ v.document.ids := fun _ => s.mem
  cases h with
  | plain h => exact h.succeeds_iff hv hsub
  | @replaceText n x hn =>
    refine Op.succeed_cons_iff_ready (e := v.replaceText n x) rfl ?_ fun _ =>
      Op.succeed_nil_iff_ready
    rw [Tree.replaceText_succeeds_iff, Tree.isLeaf, s.tokenText? hn]
    rfl
  | @moveAfter n a ops hn ha rest =>
    refine Op.succeed_cons_iff_ready (e := v.moveAfter n a) rfl ?_ fun hok =>
      rest.succeeds_iff (hv.apply (.moveAfter n a)) ?_
    · have hmove := (Tree.putsBeside_insertAfter a n).move_succeeds_iff hv.sound
        (hsub hn) (hsub ha)
      rwa [Tree.descendants, s.subtree hn] at hmove
    · exact List.Subset.trans hsub
        ((Tree.putsBeside_insertAfter a n).document_subset_move hv.sound
          (hsub hn) (hsub ha) hok)
  | @moveBefore n a ops hn ha rest =>
    refine Op.succeed_cons_iff_ready (e := v.moveBefore n a) rfl ?_ fun hok =>
      rest.succeeds_iff (hv.apply (.moveBefore n a)) ?_
    · have hmove := (Tree.putsBeside_insertBefore a n).move_succeeds_iff
        hv.sound (hsub hn) (hsub ha)
      rwa [Tree.descendants, s.subtree hn] at hmove
    · exact List.Subset.trans hsub
        ((Tree.putsBeside_insertBefore a n).document_subset_move hv.sound
          (hsub hn) (hsub ha) hok)

/-- **A planned correction can be repeated** on every tree with the document
it was planned for. -/
theorem Plan.repeatable_correct (h : Plan t ops) (offset : Nat)
    (message : String) (memory : σ) :
    (Hook.correct offset message ops memory).Repeatable t := by
  classical
  refine ⟨⟨memory, decide (∀ op ∈ ops, op.Ready t), fun v hv s => ?_⟩,
    fun _ => trivial⟩
  obtain ⟨os, u, failure, hruns, hiff⟩ := Fix.runs_ofOps memory ops v.begin
  refine ⟨Fix.keepsToItself_ofOps memory h.checkpoint? v, os, u,
    failure, hruns, ?_⟩
  rw [Bool.eq_iff_iff, Option.isNone_iff_eq_none, decide_eq_true_iff, hiff]
  exact h.succeeds_iff hv.begin (s.congr hv.begin.sound rfl)

end TreeLint
