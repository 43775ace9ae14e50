import TreeLint.Proofs.Tree.Reachable

/-!
# Kinds stay

A node keeps its kind for good: edits move nodes and change texts, taking
changes back does the same, and new nodes get identities of their own. What
a rule has once found out about the kind of a node therefore still holds
after anything that was done in between (`keepsKinds_run`).

Specification, §3.
-/

namespace TreeLint

namespace Forest

/-- The nodes with their kinds. -/
def kinds (f : Forest) : List (NodeId × Kind) :=
  f.labels.map fun l => (l.1, l.2.1)

theorem kinds_append (f g : Forest) :
    (f.append g).kinds = f.kinds ++ g.kinds := by
  simp only [kinds, labels_append, List.map_append]

theorem kinds_setText (n : NodeId) (x : String) (f : Forest) :
    (f.setText n x).kinds = f.kinds := by
  induction f with
  | nil => rfl
  | token j k y r ih =>
    simp only [kinds] at ih
    by_cases h : j = n <;> simp [setText, kinds, labels, h, ih]
  | node j k c r ihc ihr =>
    simp only [kinds] at ihc ihr
    simp [setText, kinds, labels, ihc, ihr]

end Forest

namespace Tree

variable {t u v : Tree} {n : NodeId} {k : Kind} {e : Undo} {es : List Undo}

/-- A node has a kind exactly if the forest lists it with it. -/
theorem kind?_eq_some_iff (h : t.Sound) :
    t.kind? n = some k ↔ (n, k) ∈ t.forest.kinds := by
  simp only [Forest.kinds, List.mem_map, Prod.mk.injEq]
  constructor
  · intro hk
    simp only [kind?, subtree] at hk
    cases hs : t.forest.subtree? n with
    | none => simp [hs, Forest.rootKind?] at hk
    | some s =>
      rw [hs] at hk
      exact ⟨(n, k, s.rootText?), (Forest.mem_labels_iff h.nodup).mpr
        ⟨s, hs, hk, rfl⟩, rfl, rfl⟩
  · rintro ⟨⟨m, j, x⟩, hl, rfl, rfl⟩
    obtain ⟨s, hs, hk, -⟩ := (Forest.mem_labels_iff h.nodup).mp hl
    rw [kind?, subtree, hs]
    exact hk

/-- Every node of `t` is a node of `u` and has the same kind there. -/
def KeepsKinds (t u : Tree) : Prop := t.forest.kinds ⊆ u.forest.kinds

namespace KeepsKinds

theorem refl (t : Tree) : KeepsKinds t t := List.Subset.refl _

theorem trans (h : KeepsKinds t u) (h' : KeepsKinds u v) : KeepsKinds t v :=
  List.Subset.trans h h'

theorem of_forest_eq (h : u.forest = t.forest) : KeepsKinds t u := by
  rw [KeepsKinds, h]
  exact List.Subset.refl _

/-- In terms of what a tree answers: a node that has a kind keeps it. -/
theorem kind? (h : KeepsKinds t u) (ht : t.Sound) (hu : u.Sound)
    (hk : t.kind? n = some k) : u.kind? n = some k :=
  (kind?_eq_some_iff hu).mpr (h ((kind?_eq_some_iff ht).mp hk))

theorem hasKind (h : KeepsKinds t u) (ht : t.Sound) (hu : u.Sound)
    (hk : t.hasKind n k = true) :
    u.hasKind n k = true := by
  simp only [Tree.hasKind, beq_iff_eq] at hk ⊢
  exact h.kind? ht hu hk

end KeepsKinds

/-! ## Changes, and taking them back -/

theorem Change.kinds (h : t.Sound) (hc : Change t e u) :
    u.forest.kinds.Perm t.forest.kinds := by
  cases hc with
  | graft g => exact (g.labels h).map _
  | @cut p i c hi => exact (labels_cut h (contains_of_childAt h hi).2).map _
  | @retext n x y _ => exact .of_eq (Forest.kinds_setText n y t.forest)

/-- Taking back an entry that fits is itself a change. -/
theorem Fits.change (h : t.Fits e) : ∃ e', Change t e' (t.undo e) := by
  cases e with
  | attached p i =>
    obtain ⟨c, hi⟩ := exists_childAt h
    simp only [Tree.undo, hi]
    exact ⟨_, .cut hi⟩
  | detached p i c => exact ⟨_, .graft h⟩
  | retexted n x =>
    obtain ⟨y, hy⟩ := Option.isSome_iff_exists.mp h
    exact ⟨_, .retext x hy⟩

theorem keepsKinds_change (h : t.Sound) (hc : Change t e u) : KeepsKinds t u :=
  (hc.kinds h).symm.subset

/-- Changes keep kinds, however many. -/
theorem keepsKinds_changes (h : t.Sound) (hc : Changes t u) :
    KeepsKinds t u := by
  induction hc with
  | refl => exact .refl t
  | tail hprev hstep ih =>
    refine ih.trans ?_
    cases hstep with
    | intro hc =>
      exact (keepsKinds_change (h.changes hprev) hc).trans
        (.of_forest_eq (record_forest _ _))

theorem keepsKinds_takenBack (h : t.Sound) (hr : Replayable es t) :
    KeepsKinds t (takenBack es t) := by
  induction es generalizing t with
  | nil => exact .refl t
  | cons e es ih =>
    obtain ⟨e', hc⟩ := hr.1.change
    exact (keepsKinds_change h hc).trans (ih (h.undo hr.1) hr.2)

theorem keepsKinds_rollback (h : t.Consistent) (c : Checkpoint) :
    KeepsKinds t (t.rollback c) := by
  have hsplit := h.replayable
  rw [← List.take_append_drop (t.journal.entries.length - c.mark)
    t.journal.entries,
    replayable_append] at hsplit
  refine (keepsKinds_takenBack h.sound hsplit.1).trans (.of_forest_eq ?_)
  simp only [Tree.rollback, Tree.close, unwind_eq]

theorem keepsKinds_grow (x : Forest) : KeepsKinds t (t.grow x) := by
  rw [KeepsKinds, Tree.grow, Forest.kinds_append]
  exact List.subset_append_left _ _

/-! ## Operations -/

/-- **Every operation keeps the kind of every node** (specification, §3). -/
theorem keepsKinds_effect {op : Op} (h : t.Consistent) (he : Effect t op u) :
    KeepsKinds t u := by
  cases he with
  | changed hc => exact keepsKinds_changes h.sound hc
  | created s => exact keepsKinds_grow _
  | attached s g =>
    have hgraft := keepsKinds_change (h.grow s).sound (.graft g)
    exact ((keepsKinds_grow _).trans hgraft).trans
      (.of_forest_eq (record_forest _ _))
  | opened => exact .of_forest_eq rfl
  | committed c => exact .of_forest_eq rfl
  | rolledBack c => exact keepsKinds_rollback h c

/-- **Kinds stay**, whatever is done. -/
theorem keepsKinds_run (h : t.Consistent) (ops : List Op) :
    KeepsKinds t (Op.run t ops) := by
  induction ops generalizing t with
  | nil => exact .refl t
  | cons op ops ih =>
    exact (keepsKinds_effect h (apply_effect h.sound op)).trans
      (ih (h.apply op))

end Tree

end TreeLint
