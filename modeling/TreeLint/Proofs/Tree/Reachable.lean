import TreeLint.Proofs.Tree.Replay
import TreeLint.Tree.Builder

/-!
# Trees that can come about

A tree is built from events and then worked on by operations, in any order
and with any checkpoints, old ones included. `Consistent` is what every such
tree has: it is sound, its whole journal can be taken back, and the journal
is empty while no transaction is open. The last part is what makes old
checkpoints harmless: the journal holds either every change since the
outermost transaction was opened or none at all, so its entries always fit,
however many of them a checkpoint asks for.

`run_build_linked` is the main statement: in every tree that can come about
the links agree with one another, and no index that a rollback uses is out
of bounds.

Specification, §3 and §9.
-/

namespace TreeLint.Tree

variable {t u : Tree} {e : Undo} {es : List Undo}

/-- What every tree keeps through every operation. -/
structure Consistent (t : Tree) : Prop where
  sound : t.Sound
  replayable : Replayable t.journal.entries t
  idle : t.journal.marks = [] → t.journal.entries = []

/-! ## One operation -/

theorem Change.journal (hc : Change t e u) : u.journal = t.journal := by
  cases hc <;> rfl

theorem record_of_idle (h : t.journal.marks = []) : t.record e = t := by
  simp [record, h]

theorem record_entries_of_open (h : t.journal.marks ≠ []) :
    (t.record e).journal.entries = e :: t.journal.entries := by
  simp [record, h]

namespace Consistent

/-- **Step.** A change with its entry keeps a tree consistent: the new entry
can be taken back, and the older ones fit what is then there. -/
theorem recorded (h : t.Consistent) (hc : Recorded t u) : u.Consistent := by
  have hsound := h.sound.recorded hc
  cases hc with
  | @intro e v hc =>
    by_cases hm : v.journal.marks = []
    · rw [record_of_idle hm] at hsound ⊢
      have hnone : v.journal.entries = [] := by
        rw [hc.journal] at hm ⊢
        exact h.idle hm
      exact ⟨hsound, by rw [hnone]; trivial, fun _ => hnone⟩
    · refine ⟨hsound, ?_, fun hidle => absurd (record_marks v e ▸ hidle) hm⟩
      rw [record_entries_of_open hm, hc.journal]
      have hback : ((v.record e).undo e).forest = t.forest :=
        (undo_forest_congr e (record_forest v e)).trans (hc.undo_forest h.sound)
      exact ⟨(hc.fits h.sound).congr (record_forest v e),
        h.replayable.congr hback⟩

theorem changes (h : t.Consistent) (hc : Changes t u) : u.Consistent := by
  induction hc with
  | refl => exact h
  | tail _ hstep ih => exact ih.recorded hstep

/-- A new node keeps a tree consistent: no entry of the journal is about
it. -/
theorem grow (h : t.Consistent) {x : Forest} (s : Seed t x) :
    (t.grow x).Consistent where
  sound := h.sound.grow s
  replayable := h.replayable.grow h.sound s
  idle := h.idle

theorem begin (h : t.Consistent) : t.begin.Consistent where
  sound := h.sound.congr rfl rfl
  replayable := h.replayable.congr rfl
  idle hm := nomatch hm

/-- Closing transactions keeps the journal as it is or empties it. -/
theorem close (h : t.Consistent) (c : Checkpoint) : (t.close c).Consistent := by
  refine ⟨h.sound.congr rfl rfl, ?_, ?_⟩
  · simp only [Tree.close]
    split
    · trivial
    · exact h.replayable.congr rfl
  · intro hm
    simp only [Tree.close] at hm ⊢
    rw [hm]
    rfl

/-- Taking back entries keeps what is left of the journal replayable. -/
theorem unwind (h : t.Consistent) (mark : Nat) :
    (Tree.unwind mark t.journal.entries t).Consistent := by
  let k := t.journal.entries.length - mark
  have hsplit := h.replayable
  rw [← List.take_append_drop k t.journal.entries, replayable_append] at hsplit
  rw [unwind_eq]
  refine ⟨?_, hsplit.2.congr rfl, fun hm => ?_⟩
  · exact (h.sound.takenBack hsplit.1).congr rfl rfl
  · simp only [h.idle hm, List.drop_nil]

/-- **Step.** Whatever an operation comes down to keeps a tree consistent.
-/
theorem effect {op : Op} (h : t.Consistent)
    (he : Effect t op u) : u.Consistent := by
  cases he with
  | changed hc => exact h.changes hc
  | created s => exact h.grow s
  | attached s g => exact (h.grow s).recorded (.intro (.graft g))
  | opened => exact h.begin
  | committed c => exact h.close c
  | rolledBack c => exact (h.unwind c.mark).close c

theorem apply (h : t.Consistent) (op : Op) : (op.apply t).1.Consistent :=
  h.effect (apply_effect h.sound op)

/-- A whole run, whatever its operations answer. -/
theorem run (h : t.Consistent) (ops : List Op) : (Op.run t ops).Consistent := by
  induction ops generalizing t with
  | nil => exact h
  | cons op ops ih => exact ih (h.apply op)

end Consistent

/-! ## Building

A tree is built from the events of a parser (specification, §6). The node
that is open always exists and can have children, whatever the events are.
-/

theorem sound_empty (kind : Kind) : (Tree.empty kind).Sound where
  nodup := by simp [Tree.empty, Forest.ids]
  mem_ids n := by simp [Tree.empty, Forest.ids, root]
  sorted := by simp [Tree.empty, Forest.roots]
  root_mem := by simp [Tree.empty, Forest.roots]

end TreeLint.Tree

namespace TreeLint.Builder

/-- What a builder keeps: nothing was recorded, and the nodes that can be
added to are composite. -/
structure Ready (b : Builder) : Prop where
  sound : b.tree.Sound
  journal : b.tree.journal = {}
  root : b.tree.forest.IsComposite Tree.root
  opened : ∀ n ∈ b.opened, b.tree.forest.IsComposite n

namespace Ready

variable {b : Builder} {x : Forest}

theorem current (h : b.Ready) : b.tree.forest.IsComposite b.current := by
  unfold Builder.current
  cases ho : b.opened with
  | nil => exact h.root
  | cons n ns => exact h.opened n (by simp [ho])

/-- Adding a node below another gives the labels that adding it behind all
others gives. -/
theorem labels_attach (h : b.Ready) :
    (b.attach x).forest.labels.Perm (b.tree.grow x).forest.labels := by
  have hput := Forest.labels_insertUnder (b.tree.children b.current).length x
    h.sound.nodup h.current
  simp only [Tree.grow, Forest.labels_append]
  exact hput.trans List.perm_append_comm

theorem sound_attach (h : b.Ready) (s : Tree.Seed b.tree x) :
    (b.attach x).Sound := by
  have hroots : (b.attach x).forest.roots = b.tree.forest.roots :=
    Forest.roots_insertUnder _ _ _ _
  refine (h.sound.grow s).of_labels h.labels_attach rfl ?_ ?_
  · rw [hroots]
    exact h.sound.sorted
  · rw [hroots]
    exact h.sound.root_mem

/-- Composite nodes stay composite, and so is a new one. -/
theorem isComposite_attach (h : b.Ready) (s : Tree.Seed b.tree x) {n : NodeId}
    {k : Kind} (hn : (n, k, none) ∈ b.tree.forest.labels ++ x.labels) :
    (b.attach x).forest.IsComposite n := by
  rw [Forest.isComposite_iff_mem_labels (h.sound_attach s).nodup]
  refine ⟨k, h.labels_attach.mem_iff.mpr ?_⟩
  rwa [Tree.grow, Forest.labels_append]

theorem isComposite_attach_of (h : b.Ready) (s : Tree.Seed b.tree x)
    {n : NodeId} (hn : b.tree.forest.IsComposite n) :
    (b.attach x).forest.IsComposite n := by
  obtain ⟨k, hk⟩ := (Forest.isComposite_iff_mem_labels h.sound.nodup).mp hn
  exact h.isComposite_attach s (List.mem_append_left _ hk)

/-- **Step.** Each event keeps a builder ready for the next. -/
theorem step (h : b.Ready) (event : BuildEvent) : (b.step event).Ready := by
  cases event with
  | start kind =>
    have s : Tree.Seed b.tree (.node b.tree.count kind .nil .nil) := .node kind
    refine ⟨h.sound_attach s, h.journal, h.isComposite_attach_of s h.root,
      fun n hn => ?_⟩
    rcases List.mem_cons.mp hn with rfl | hn
    · exact h.isComposite_attach s (List.mem_append_right _ List.mem_cons_self)
    · exact h.isComposite_attach_of s (h.opened n hn)
  | token kind text =>
    have s : Tree.Seed b.tree (.token b.tree.count kind text .nil) :=
      .token kind text
    exact ⟨h.sound_attach s, h.journal, h.isComposite_attach_of s h.root,
      fun n hn => h.isComposite_attach_of s (h.opened n hn)⟩
  | finish =>
    exact ⟨h.sound, h.journal, h.root, fun n hn =>
      h.opened n (List.mem_of_mem_drop hn)⟩

/-- **Run.** So do any number of events. -/
theorem foldl_step (h : b.Ready) (events : List BuildEvent) :
    (events.foldl Builder.step b).Ready := by
  induction events generalizing b with
  | nil => exact h
  | cons event events ih => exact ih (h.step event)

end Ready

theorem ready_empty (kind : Kind) : Ready { tree := Tree.empty kind } where
  sound := Tree.sound_empty kind
  journal := rfl
  root := ⟨kind, .nil, by simp [Tree.empty, Forest.subtree?]⟩
  opened n hn := nomatch hn

end TreeLint.Builder

namespace TreeLint.Tree

/-- **Every tree that is built is consistent,** with an empty journal. -/
theorem consistent_build (kind : Kind) (events : List BuildEvent) :
    (Tree.build kind events).Consistent := by
  have h := (Builder.ready_empty kind).foldl_step events
  refine ⟨h.sound, ?_, fun _ => ?_⟩
  · rw [Tree.build, h.journal]
    trivial
  · rw [Tree.build, h.journal]

/-! ## Whole runs -/

/-- The trees that can come about: built from events and worked on by
operations. -/
def Reachable (t : Tree) : Prop :=
  ∃ kind events ops, t = Op.run (Tree.build kind events) ops

/-- **Every tree that operations lead to is consistent.** -/
theorem Reachable.consistent {t : Tree} (h : t.Reachable) : t.Consistent := by
  obtain ⟨kind, events, ops, rfl⟩ := h
  exact (consistent_build kind events).run ops

/-- Every entry that unwinding to a mark takes back fits when its turn
comes; the recursion is the one of `unwind`. -/
def UnwindFits (mark : Nat) : List Undo → Tree → Prop
  | [], _ => True
  | entry :: entries, t =>
    mark ≤ entries.length → t.Fits entry ∧
      UnwindFits mark entries (t.undo entry)

theorem Replayable.unwindFits {t : Tree} {es : List Undo} (h : Replayable es t)
    (mark : Nat) :
    UnwindFits mark es t := by
  induction es generalizing t with
  | nil => trivial
  | cons e es ih => exact fun _ => ⟨h.1, ih h.2⟩

/-- **Every tree that can come about**: built from any events and worked on
by any operations, with any checkpoints whatever, it has links that agree
with one another, and a rollback to any checkpoint finds every index it uses
in bounds. Specification, §3 and §9. -/
theorem run_build_linked (kind : Kind) (events : List BuildEvent)
    (ops : List Op) :
    (Op.run (Tree.build kind events) ops).Linked ∧
      ∀ c : Checkpoint, UnwindFits c.mark
        (Op.run (Tree.build kind events) ops).journal.entries
        (Op.run (Tree.build kind events) ops) := by
  have h := (consistent_build kind events).run ops
  exact ⟨h.sound.linked, fun c => h.replayable.unwindFits c.mark⟩

end TreeLint.Tree
