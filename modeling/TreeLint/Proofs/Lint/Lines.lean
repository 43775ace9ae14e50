import TreeLint.Lint.LineMemo
import TreeLint.Proofs.Tree.Document
import TreeLint.Proofs.Tree.Kinds

/-!
# Revisions and remembered lines

Every change of a tree raises its revision, and so does every change that is
taken back. Two trees of one history with the same revision therefore have
the same document (`Onward`), and line starts that were remembered for a
revision are right for every later tree that is still at that revision
(`LineMemo.Knows`).

Specification, §4.3: line and column are worked out on the live tree.
-/

namespace TreeLint

namespace Tree

variable {t u v : Tree} {e : Undo} {es : List Undo}

/-- `u` may come after `t`: its revision is higher, or nothing has happened
to the document. -/
def Onward (t u : Tree) : Prop :=
  t.revision < u.revision ∨ u.revision = t.revision ∧ u.document = t.document

namespace Onward

theorem refl (t : Tree) : Onward t t := Or.inr ⟨rfl, rfl⟩

theorem trans (h : Onward t u) (h' : Onward u v) : Onward t v := by
  rcases h with hlt | ⟨hrev, hdoc⟩
  · rcases h' with hlt' | ⟨hrev', -⟩
    · exact Or.inl (Nat.lt_trans hlt hlt')
    · exact Or.inl (hrev' ▸ hlt)
  · rcases h' with hlt' | ⟨hrev', hdoc'⟩
    · exact Or.inl (hrev ▸ hlt')
    · exact Or.inr ⟨hrev'.trans hrev, hdoc'.trans hdoc⟩

theorem of_forest_eq (hf : u.forest = t.forest)
    (hrev : u.revision = t.revision) : Onward t u :=
  Or.inr ⟨hrev, document_congr hf⟩

theorem revision_le (h : Onward t u) : t.revision ≤ u.revision := by
  rcases h with hlt | ⟨hrev, -⟩
  · exact Nat.le_of_lt hlt
  · exact Nat.le_of_eq hrev.symm

end Onward

/-! ## Changes, and taking them back -/

theorem Change.revision (hc : Change t e u) : u.revision = t.revision + 1 := by
  cases hc <;> rfl

theorem onward_change (hc : Change t e u) : Onward t u :=
  Or.inl (hc.revision ▸ Nat.lt_succ_self _)

theorem onward_record (u : Tree) (e : Undo) : Onward u (u.record e) :=
  .of_forest_eq (record_forest u e) (record_revision u e)

theorem onward_changes (hc : Changes t u) : Onward t u := by
  induction hc with
  | refl => exact .refl t
  | tail _ hstep ih =>
    cases hstep with
    | intro hc => exact (ih.trans (onward_change hc)).trans (onward_record _ _)

/-- To take changes back is to go onward too: each counts as a change. -/
theorem onward_takenBack (h : t.Sound) (hr : Replayable es t) :
    Onward t (takenBack es t) := by
  induction es generalizing t with
  | nil => exact .refl t
  | cons e es ih =>
    obtain ⟨e', hc⟩ := hr.1.change
    exact (onward_change hc).trans (ih (h.undo hr.1) hr.2)

theorem onward_rollback (h : t.Consistent) (c : Checkpoint) :
    Onward t (t.rollback c) := by
  have hsplit := h.replayable
  rw [← List.take_append_drop (t.journal.entries.length - c.mark)
    t.journal.entries, replayable_append] at hsplit
  refine (onward_takenBack h.sound hsplit.1).trans ?_
  simp only [Tree.rollback, Tree.close, unwind_eq]
  exact .of_forest_eq rfl rfl

/-! ## Operations -/

theorem onward_grow (h : t.Sound) (x : Forest) : Onward t (t.grow x) :=
  Or.inr ⟨rfl, document_grow h x⟩

/-- **Every operation goes onward:** the revision goes up, or the document
is the same. -/
theorem onward_effect {op : Op} (h : t.Consistent)
    (he : Effect t op u) : Onward t u := by
  cases he with
  | changed hc => exact onward_changes hc
  | created s => exact onward_grow h.sound _
  | attached s g =>
    exact ((onward_grow h.sound _).trans (onward_change (.graft g))).trans
      (onward_record _ _)
  | opened => exact .of_forest_eq rfl rfl
  | committed c => exact .of_forest_eq rfl rfl
  | rolledBack c => exact onward_rollback h c

/-- **Revisions go up** with every run, unless the document stays the same. -/
theorem onward_run (h : t.Consistent) (ops : List Op) :
    Onward t (Op.run t ops) := by
  induction ops generalizing t with
  | nil => exact .refl t
  | cons op ops ih =>
    exact (onward_effect h (apply_effect h.sound op)).trans (ih (h.apply op))

end Tree

/-! ## Remembered line starts -/

namespace LineMemo

variable {memo : LineMemo} {t u : Tree}

/-- What is remembered is of this tree or of an earlier one, and right if
the tree is still at that revision. -/
def Knows (memo : LineMemo) (t : Tree) : Prop :=
  ∀ revision table, memo.entry = some (revision, table) →
    revision ≤ t.revision ∧ (revision = t.revision → table = t.lineTable)

theorem knows_empty (t : Tree) : Knows {} t := by
  intro revision table h
  cases h

/-- **What is remembered is never stale:** whoever goes onward changes the
revision along with the document. -/
theorem Knows.onward (h : memo.Knows t) (htu : t.Onward u) : memo.Knows u := by
  intro revision table hentry
  obtain ⟨hle, htable⟩ := h revision table hentry
  refine ⟨Nat.le_trans hle htu.revision_le, fun hrev => ?_⟩
  rcases htu with hlt | ⟨hsame, hdoc⟩
  · omega
  · rw [htable (hrev.trans hsame), Tree.lineTable, Tree.lineTable, Tree.toText,
      Tree.toText]
    exact congrArg (fun f => Text.LineTable.ofText (Forest.text f)) hdoc.symm

theorem Knows.table_eq (h : memo.Knows t) : memo.table t = t.lineTable := by
  unfold table
  split
  · next revision table hentry =>
    split
    · next hrev => exact (h revision table hentry).2 hrev
    · rfl
  · rfl

theorem Knows.position_eq (h : memo.Knows t) (offset : Nat) :
    (memo.position t offset).2 = t.position offset := by
  rw [position, h.table_eq]
  rfl

theorem Knows.position (h : memo.Knows t) (offset : Nat) :
    (memo.position t offset).1.Knows t := by
  intro revision table hentry
  simp only [LineMemo.position, h.table_eq, Option.some.injEq, Prod.mk.injEq]
    at hentry
  exact ⟨Nat.le_of_eq hentry.1.symm, fun _ => hentry.2.symm⟩

end LineMemo

end TreeLint
