import TreeLint.Proofs.Lint.Ledger

/-!
# Remembered positions are never stale

Where the lines of a file start is remembered together with the revision of
the tree, and with nothing else. That is enough: whatever happens to a tree
between two look-ups, be it changes, changes that fail, or changes that are
taken back, every look-up answers as if the lines had been worked out from
the text of that moment (`Tree.Consistent.recalled_eq`). In particular a
violation has the line and column that its offset had in the file when it
was reported.

Specification, §4.3.
-/

namespace TreeLint

/-- What happens to a file that is looked at now and then. -/
inductive Moment where
  | change (op : Op)
  | look (offset : Nat)

/-- The positions looked up in the course of some moments, by what is
remembered. -/
def LineMemo.recalled : LineMemo → Tree → List Moment → List Text.Position
  | _, _, [] => []
  | memo, t, .change op :: ms => memo.recalled (op.apply t).1 ms
  | memo, t, .look offset :: ms =>
    (memo.position t offset).2 :: (memo.position t offset).1.recalled t ms

namespace Tree

/-- The positions looked up in the course of some moments, each worked out
from the text of its moment. -/
def positions : Tree → List Moment → List Text.Position
  | _, [] => []
  | t, .change op :: ms => (op.apply t).1.positions ms
  | t, .look offset :: ms =>
    (Text.LineTable.ofText t.toText).position offset :: t.positions ms

variable {t : Tree} {memo : LineMemo}

/-- What is remembered stays right through every change, and is renewed by
every look-up. -/
theorem Consistent.recalled_eq (ht : t.Consistent) (hm : memo.Knows t)
    (ms : List Moment) :
    memo.recalled t ms = t.positions ms := by
  induction ms generalizing t memo with
  | nil => rfl
  | cons m ms ih =>
    cases m with
    | change op => exact ih (ht.apply op) (hm.onward (onward_run ht [op]))
    | look offset =>
      rw [LineMemo.recalled, positions, hm.position_eq,
        ih ht (hm.position offset)]
      rfl

/-- The text of a tree is a matter of its revision. -/
theorem Onward.toText_eq {u : Tree} (h : Onward t u)
    (hrev : t.revision = u.revision) : t.toText = u.toText := by
  rcases h with hlt | ⟨-, hdoc⟩
  · exact absurd hrev (Nat.ne_of_lt hlt)
  · exact congrArg Forest.text hdoc.symm

end Tree

/-- The violation of an entry has the position of its offset in the text on
which it was reported. -/
theorem Entry.position_eq {σ : Type} {policy : Policy} {e : Entry σ}
    (he : e.before.InOrder) :
    (e.violation policy).position =
      (Text.LineTable.ofText e.before.tree.toText).position e.offset :=
  he.lines.position_eq e.offset

/-- **Remembered positions are never stale.** Let a file that can come about
be changed by any operations, with look-ups in between. Every look-up
answers as if the lines were worked out anew, and whenever the revision is
the same, so is the text. And in every visit of the file, every violation
has the line and column of its offset in the text of the moment at which it
was reported. Specification, §4.3. -/
theorem positions_never_stale (t : Tree) (ht : t.Reachable) :
    (∀ ms, LineMemo.recalled {} t ms = t.positions ms) ∧
    (∀ ops more, (Op.run t ops).revision = (Op.run t (ops ++ more)).revision →
      (Op.run t ops).toText = (Op.run t (ops ++ more)).toText) ∧
    ∀ (σ : Type) (policy : Policy) (roster : Roster σ) fuel asked v,
      roster.visit fuel policy asked t = some v →
      ∃ es found, roster.HasLedger policy asked t v es ∧
        List.Forall₂ (fun e w => w.offset = e.offset ∧
          w.position = (Text.LineTable.ofText e.before.tree.toText).position
            e.offset) es found ∧
        Violation.StablySorted found v.outcome.violations := by
  refine ⟨ht.consistent.recalled_eq (LineMemo.knows_empty t),
    fun ops more hrev => ?_, ?_⟩
  · rw [Op.run_append] at hrev ⊢
    exact (Tree.onward_run (ht.consistent.run ops) more).toText_eq hrev
  · intro σ policy roster fuel asked v hv
    obtain ⟨es, scene, hledger, hbooked, -, hsorted, -⟩ :=
      Roster.exists_ledger hv
    have hentries := (hbooked.inOrder ⟨ht.consistent, LineMemo.knows_empty t⟩).2
    refine ⟨es, scene.violations, hledger, ?_, hsorted⟩
    rw [hbooked.violations]
    exact List.forall₂_map_right_iff.mpr
      (List.forall₂_same.mpr fun e he =>
        ⟨rfl, Entry.position_eq (hentries e he)⟩)

/-- The only line break of a file is replaced, and a rollback puts it back;
look-ups come before, between and after. -/
theorem positions_never_stale_after_rollback :
    let t :=
      Tree.build .file [.token .identifier "a", .token .whitespace "\n",
        .token .identifier "b"]
    LineMemo.recalled {} t [.look 2, .change .begin,
      .change (.replaceText 2 " "), .look 2,
      .change (.rollback t.checkpoint), .look 2] =
          [⟨2, 1⟩, ⟨1, 3⟩, ⟨2, 1⟩] := by
  intro t
  have h := (positions_never_stale t ⟨.file, _, [], rfl⟩).1
  rw [h]
  decide +kernel

end TreeLint
