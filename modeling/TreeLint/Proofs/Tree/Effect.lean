import TreeLint.Proofs.Tree.Change
import TreeLint.Tree.Op
import Mathlib.Logic.Relation
import Mathlib.Tactic.SplitIfs

/-!
# What an operation does

Every operation on a sound tree is one of a few things: a run of recorded
changes, a new node that may be grafted at once, or a transaction that is
opened or closed. `apply_effect` says so once for all operations, and what
holds of whole runs is proved from it alone. A failed operation is no case
of its own: it has made some of its changes, or none.

Specification, §3 and §4.3.
-/

namespace TreeLint.Tree

variable {t u : Tree} {n p c : NodeId} {i : Nat}

/-! ## Recorded changes

While a transaction is open every change is entered in the journal in the
form of its own undoing (specification, §4.3). Entering it touches nothing
but the journal. -/

/-- A change of the forest, and what takes it back. -/
inductive Change (t : Tree) : Undo → Tree → Prop
  | graft {p : NodeId} {i : Nat} {c : NodeId} (g : t.Graftable p i c) :
      Change t (.attached p i) (t.graft p i c)
  | cut {p : NodeId} {i : Nat} {c : NodeId} (hi : (t.children p)[i]? = some c) :
      Change t (.detached p i c) (t.cut c)
  | retext {n : NodeId} {x : String} (y : String)
      (hx : t.tokenText? n = some x) : Change t (.retexted n x) (t.retext n y)

/-- A change that is entered in the journal. -/
inductive Recorded (t : Tree) : Tree → Prop
  | intro {e : Undo} {u : Tree} (h : Change t e u) : Recorded t (u.record e)

/-- Any number of recorded changes, one after the other. -/
abbrev Changes : Tree → Tree → Prop := Relation.ReflTransGen Recorded

@[simp] theorem record_forest (t : Tree) (e : Undo) :
    (t.record e).forest = t.forest := by
  unfold record; split <;> rfl

@[simp] theorem record_count (t : Tree) (e : Undo) :
    (t.record e).count = t.count := by
  unfold record; split <;> rfl

@[simp] theorem record_marks (t : Tree) (e : Undo) :
    (t.record e).journal.marks = t.journal.marks := by
  unfold record; split <;> rfl

/-- Being sound is a matter of the forest and the count. -/
theorem Sound.congr (h : t.Sound) (hf : u.forest = t.forest)
    (hc : u.count = t.count) : u.Sound where
  nodup := hf ▸ h.nodup
  mem_ids n := by rw [hf, hc]; exact h.mem_ids n
  sorted := hf ▸ h.sorted
  root_mem := hf ▸ h.root_mem

theorem Sound.change {e : Undo} (h : t.Sound)
    (hc : Change t e u) : u.Sound := by
  cases hc with
  | graft g => exact g.sound h
  | cut hi => exact sound_cut h hi
  | retext y _ => exact sound_retext h _ y

theorem Sound.recorded (h : t.Sound) (hc : Recorded t u) : u.Sound := by
  cases hc with
  | intro hc => exact (h.change hc).congr (record_forest _ _) (record_count _ _)

theorem Sound.changes (h : t.Sound) (hc : Changes t u) : u.Sound := by
  induction hc with
  | refl => exact h
  | tail _ hstep ih => exact ih.recorded hstep

/-! ## New nodes -/

/-- Put one more tree behind all others and count its root. -/
def grow (t : Tree) (x : Forest) : Tree :=
  { t with forest := t.forest.append x, count := t.count + 1 }

/-- A node on its own with the next free identity. -/
inductive Seed (t : Tree) : Forest → Prop
  | token (k : Kind) (x : String) : Seed t (.token t.count k x .nil)
  | node (k : Kind) : Seed t (.node t.count k .nil .nil)

namespace Seed

variable {x : Forest}

theorem ids (s : Seed t x) : x.ids = [t.count] := by
  cases s <;> rfl

theorem roots (s : Seed t x) : x.roots = [t.count] := by
  cases s <;> rfl

theorem congr (s : Seed t x) (h : u.count = t.count) : Seed u x := by
  cases s with
  | token k y => rw [← h]; exact .token k y
  | node k => rw [← h]; exact .node k

end Seed

/-- **A new node keeps a tree sound:** its identity is the one that was
free. -/
theorem Sound.grow (h : t.Sound) {x : Forest} (s : Seed t x) :
    (t.grow x).Sound where
  nodup := by
    simp only [Tree.grow, Forest.ids_append, s.ids]
    have hn : t.count ∉ t.forest.ids := fun hm =>
      Nat.lt_irrefl _ ((h.mem_ids _).mp hm)
    exact List.nodup_append'.mpr
      ⟨h.nodup, List.nodup_singleton _, by simpa using hn⟩
  mem_ids n := by
    simp only [Tree.grow, Forest.ids_append, s.ids, List.mem_append, h.mem_ids,
      List.mem_singleton]
    exact Nat.lt_succ_iff_lt_or_eq.symm
  sorted := by
    simp only [Tree.grow, Forest.roots_append, s.roots]
    refine List.pairwise_append.mpr ⟨h.sorted, List.pairwise_singleton _ _,
      fun a ha b hb => ?_⟩
    rw [List.mem_singleton.mp hb]
    exact (h.mem_ids a).mp (Forest.mem_ids_of_mem_roots ha)
  root_mem := by
    simp only [Tree.grow, Forest.roots_append]
    exact List.mem_append_left _ h.root_mem

/-! ## Operations -/

/-- What an operation can do to a tree. -/
inductive Effect (t : Tree) : Op → Tree → Prop
  | changed {op : Op} {u : Tree} (h : Changes t u) : Effect t op u
  | created {op : Op} {x : Forest} (s : Seed t x) : Effect t op (t.grow x)
  | attached {op : Op} {x : Forest} (s : Seed t x) {p : NodeId} {i : Nat}
      {c : NodeId} (g : (t.grow x).Graftable p i c) :
      Effect t op (((t.grow x).graft p i c).record (.attached p i))
  | opened : Effect t .begin t.begin
  | committed (c : Checkpoint) : Effect t (.commit c) (t.commit c)
  | rolledBack (c : Checkpoint) : Effect t (.rollback c) (t.rollback c)

/-- Attaching a node fails and does nothing, or grafts it. -/
theorem insertChild_cases (h : t.Sound) (p : NodeId) (i : Nat) (c : NodeId) :
    (t.insertChild p i c).tree = t ∨
      t.Graftable p i c ∧ (t.insertChild p i c).tree = (t.graft p i c).record
        (.attached p i) := by
  unfold insertChild
  split_ifs with hp hc hl hd hcyc hb
  · exact Or.inl rfl
  · exact Or.inl rfl
  · exact Or.inl rfl
  · exact Or.inl rfl
  · exact Or.inl rfl
  · exact Or.inl rfl
  · refine Or.inr ⟨?_, rfl⟩
    simp only [Bool.not_eq_true', Bool.not_eq_false, Bool.not_eq_true,
      Bool.or_eq_true, not_or,
      beq_iff_eq, List.contains_iff_mem] at hp hc hl hd hcyc
    refine ⟨hp, hl, hc, by simpa using hd.1, hd.2, ?_, Nat.not_lt.mp hb⟩
    rw [h.mem_descendants_iff_above hc]
    exact not_or.mpr hcyc

theorem changes_insertChild (h : t.Sound) (p : NodeId) (i : Nat) (c : NodeId) :
    Changes t (t.insertChild p i c).tree := by
  rcases insertChild_cases h p i c with htree | ⟨g, htree⟩
  · rw [htree]
  · rw [htree]
    exact .single (.intro (.graft g))

/-- Attach a node next to another one, `k` places behind its index: before
it for 0, after it for 1. -/
def insertBeside (k : Nat) (t : Tree) (anchor new : NodeId) : Edited :=
  match t.parent? anchor, t.childIndex? anchor with
  | some parent, some index => t.insertChild parent (index + k) new
  | _, _ => ⟨t, some (.noParent anchor)⟩

/-- Move a node next to another one. -/
def moveBeside (k : Nat) (t : Tree) (n anchor : NodeId) : Edited :=
  (t.detach n).andThen fun t => t.insertBeside k anchor n

theorem moveBefore_eq (t : Tree) (n a : NodeId) :
    t.moveBefore n a = t.moveBeside 0 n a := rfl

theorem moveAfter_eq (t : Tree) (n a : NodeId) :
    t.moveAfter n a = t.moveBeside 1 n a := rfl

/-- Attaching next to a node fails and does nothing, or attaches below the
parent of that node. -/
theorem insertBeside_cases (k : Nat) (t : Tree) (anchor c : NodeId) :
    (t.insertBeside k anchor c).tree = t ∨
      ∃ p i, t.insertBeside k anchor c = t.insertChild p i c := by
  unfold insertBeside
  split
  · exact Or.inr ⟨_, _, rfl⟩
  · exact Or.inl rfl

theorem insertBefore_cases (t : Tree) (anchor c : NodeId) :
    (t.insertBefore anchor c).tree = t ∨
      ∃ p i, t.insertBefore anchor c = t.insertChild p i c :=
  insertBeside_cases 0 t anchor c

theorem insertAfter_cases (t : Tree) (anchor c : NodeId) :
    (t.insertAfter anchor c).tree = t ∨
      ∃ p i, t.insertAfter anchor c = t.insertChild p i c :=
  insertBeside_cases 1 t anchor c

theorem changes_of_insertion (h : t.Sound) {c : NodeId} {e : Edited}
    (he : e.tree = t ∨ ∃ p i, e = t.insertChild p i c) : Changes t e.tree := by
  rcases he with htree | ⟨p, i, rfl⟩
  · rw [htree]
  · exact changes_insertChild h p i c

theorem childAt_of_childIndex? (hp : t.parent? c = some p)
    (hi : t.childIndex? c = some i) :
    (t.children p)[i]? = some c := by
  simp only [childIndex?, siblings, hp] at hi
  obtain ⟨hlt, hget, -⟩ := List.idxOf?_eq_some_iff.mp hi
  rw [List.getElem?_eq_getElem hlt, hget]

theorem changes_detach (t : Tree) (n : NodeId) :
    Changes t (t.detach n).tree := by
  unfold detach
  split
  · next hp hi => exact .single (.intro (.cut (childAt_of_childIndex? hp hi)))
  · exact .refl

theorem changes_replaceText (t : Tree) (n : NodeId) (y : String) :
    Changes t (t.replaceText n y).tree := by
  unfold replaceText
  split
  · next hx => exact .single (.intro (.retext y hx))
  · exact .refl

/-- Two edits in a row make the changes of the first and, if it did not
fail, those of the second. -/
theorem changes_andThen {e : Edited} {next : Tree → Edited}
    (he : Changes t e.tree) (hnext : Changes e.tree (next e.tree).tree) :
    Changes t (e.andThen next).tree := by
  unfold Edited.andThen
  split
  · exact he
  · exact he.trans hnext

theorem changes_replace (h : t.Sound) (old new : NodeId) :
    Changes t (t.replace old new).tree :=
  changes_andThen (changes_of_insertion h (insertBefore_cases t old new))
    (changes_detach _ old)

theorem changes_moveAfter (h : t.Sound) (n anchor : NodeId) :
    Changes t (t.moveAfter n anchor).tree :=
  have hd := changes_detach t n
  changes_andThen hd (changes_of_insertion (h.changes hd)
    (insertAfter_cases _ anchor n))

theorem changes_moveBefore (h : t.Sound) (n anchor : NodeId) :
    Changes t (t.moveBefore n anchor).tree :=
  have hd := changes_detach t n
  changes_andThen hd (changes_of_insertion (h.changes hd)
    (insertBefore_cases _ anchor n))

/-- Filling a gap changes the white space there, or creates white space that
may be attached at once. -/
theorem effect_fillGap (h : t.Sound) (op : Op) (neighbour : Option NodeId)
    (x : String) (attach : Tree → NodeId → Edited)
    (hattach : ∀ u c, (attach u c).tree = u ∨ ∃ p i,
      attach u c = u.insertChild p i c) :
    Effect t op (t.fillGap neighbour x attach).tree := by
  unfold fillGap
  split
  · split
    · exact .changed (changes_detach t _)
    · exact .changed (changes_replaceText t _ x)
  · split
    · exact .changed .refl
    · have s : Seed t (.token t.count .whitespace x .nil) := .token _ _
      have hgrow : t.newToken .whitespace x =
          t.grow (.token t.count .whitespace x .nil) := rfl
      rw [hgrow]
      rcases hattach (t.grow (.token t.count .whitespace x .nil)) t.count
        with htree | ⟨p, i, heq⟩
      · rw [htree]
        exact .created s
      · rw [heq]
        rcases insertChild_cases (h.grow s) p i t.count with htree | ⟨g, htree⟩
        · rw [htree]
          exact .created s
        · rw [htree]
          exact .attached s g

/-- **What operations do**, whatever they answer. -/
theorem apply_effect (h : t.Sound) (op : Op) : Effect t op (op.apply t).1 := by
  cases op with
  | newToken kind text => exact .created (.token kind text)
  | newNode kind => exact .created (.node kind)
  | insertChild p i c => exact .changed (changes_insertChild h p i c)
  | appendChild p c => exact .changed (changes_insertChild h p _ c)
  | insertBefore anchor c =>
    exact .changed (changes_of_insertion h (insertBefore_cases t anchor c))
  | insertAfter anchor c =>
    exact .changed (changes_of_insertion h (insertAfter_cases t anchor c))
  | detach n => exact .changed (changes_detach t n)
  | replace old new => exact .changed (changes_replace h old new)
  | moveAfter n anchor => exact .changed (changes_moveAfter h n anchor)
  | moveBefore n anchor => exact .changed (changes_moveBefore h n anchor)
  | replaceText n x => exact .changed (changes_replaceText t n x)
  | spaceBefore n x =>
    exact effect_fillGap h _ _ x _ fun u c => insertBefore_cases u n c
  | spaceAfter n x =>
    exact effect_fillGap h _ _ x _ fun u c => insertAfter_cases u n c
  | begin => exact .opened
  | commit c => exact .committed c
  | rollback c => exact .rolledBack c

end TreeLint.Tree
