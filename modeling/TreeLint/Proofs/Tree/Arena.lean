import TreeLint.Proofs.Forest.Context
import TreeLint.Proofs.Tree.Kinds
import TreeLint.Proofs.Tree.Rollback
import Mathlib.Data.List.Sort

/-!
# Nodes in a table

The nodes of a file can be kept in a table, in the order they were created
in (specification, §3). Each slot has the kind and the text of its node,
the node above it and the nodes directly below it. An edit then writes to
two slots: a child is put into the list of its parent or taken from it, and
the parent of the child is set or cleared. Nothing else moves.

`Tree.arena` is the table of a tree. A graft, a cut, a new text and a new
node are each the write of that name on the table (`arena_graft`,
`arena_cut`, `arena_retext`, `arena_grow`), taking a change back is the
opposite write (`arena_undo`), and a rollback is a run of them
(`arena_rollback`). So whatever is done to a tree comes down to writes that
find every slot and every index they use (`writes_run`). Nothing is lost
either way: the table determines the forest (`forest_eq_of_arena_eq`).

Specification, §3 and §9.
-/

namespace TreeLint

/-! ## Children after a change of the forest -/

namespace Forest

variable {f s : Forest} {n p : NodeId}

theorem mem_ids_insertAt (i : Nat) (hn : n ∉ s.ids) :
    n ∈ (insertAt s i f).ids ↔ n ∈ f.ids := by
  rw [(ids_perm_of_labels_perm (g := s.append f)
    (by rw [labels_append]; exact labels_insertAt s i f)).mem_iff]
  simp [hn]

theorem mem_ids_insertUnder (i : Nat) (hn : n ∉ s.ids) :
    n ∈ (insertUnder p i s f).ids ↔ n ∈ f.ids := by
  induction f with
  | nil => rfl
  | token j k y r ih => simp [insertUnder, ids, ih]
  | node j k c r ihc ihr =>
    rw [insertUnder]
    split_ifs
    · simp [ids, mem_ids_insertAt i hn]
    · simp [ids, ihc, ihr]

/-- Nodes outside what is put in keep what stands below them. -/
theorem offspring_insertAt (i : Nat) (hn : n ∉ s.ids) :
    (insertAt s i f).offspring n = f.offspring n := by
  have hfront : ∀ g : Forest, (s.append g).offspring n = g.offspring n := by
    intro g
    rw [offspring_append, if_neg hn]
  induction f generalizing i with
  | nil =>
    cases i with
    | zero => exact hfront .nil
    | succ i => rw [insertAt, offspring_of_not_mem hn]; rfl
  | token j k y r ih =>
    cases i with
    | zero => exact hfront _
    | succ i => rw [insertAt, offspring_token, offspring_token, ih]
  | node j k c r _ ih =>
    cases i with
    | zero => exact hfront _
    | succ i => rw [insertAt, offspring_node, offspring_node, ih]

/-- A tree that is put under one node changes the children of no other. -/
theorem roots_offspring_insertUnder (i : Nat) (hp : n ≠ p)
    (hn : n ∉ s.ids) :
    ((insertUnder p i s f).offspring n).roots = (f.offspring n).roots := by
  induction f with
  | nil => rfl
  | token j k y r ih =>
    rw [insertUnder, offspring_token, offspring_token]
    split_ifs
    · rfl
    · exact ih
  | node j k c r ihc ihr =>
    rw [insertUnder]
    by_cases hj : j = p
    · have hne : j ≠ n := fun h => hp (h.symm.trans hj)
      simp only [if_pos hj, offspring_node, if_neg hne,
        mem_ids_insertAt i hn, offspring_insertAt i hn]
    · simp only [if_neg hj, offspring_node, mem_ids_insertUnder i hn]
      split_ifs
      · exact roots_insertUnder p i s c
      · exact ihc
      · exact ihr

/-- A new text changes the children of no node. -/
theorem roots_offspring_setText (m : NodeId) (x : String) (f : Forest) :
    ((f.setText m x).offspring n).roots = (f.offspring n).roots := by
  induction f with
  | nil => rfl
  | token j k y r ih =>
    rw [setText]
    split_ifs <;> rw [offspring_token, offspring_token]
    split_ifs
    · rfl
    · exact ih
  | node j k c r ihc ihr =>
    simp only [setText, offspring_node, ids_setText]
    split_ifs
    · exact roots_setText m x c
    · exact ihc
    · exact ihr

end Forest

/-! ## The table -/

/-- What the table holds for one node. -/
structure Slot where
  kind : Kind
  /-- The text of a token; composite nodes have none. -/
  text : Option String
  parent : Option NodeId := none
  children : List NodeId := []
deriving DecidableEq, Repr

/-- A table of nodes, each at the place of its identity. -/
structure Arena where
  slots : List Slot
  /-- Goes up with every write but the first one of a node. -/
  revision : Nat := 0
deriving DecidableEq, Repr

namespace Arena

/-- Write one more node, on its own. -/
def alloc (a : Arena) (kind : Kind) (text : Option String) : Arena :=
  { a with slots := a.slots ++ [{ kind, text }] }

/-- Change the list of `parent`, and set or clear the parent of `child`. -/
def relink (a : Arena) (parent : NodeId)
    (change : List NodeId → List NodeId) (child : NodeId)
    (above : Option NodeId) : Arena where
  slots := (a.slots.modify parent fun s =>
      { s with children := change s.children }).modify child fun s =>
    { s with parent := above }
  revision := a.revision + 1

/-- Put `child` at an index into the list of `parent`, and set its
parent. -/
def link (a : Arena) (parent : NodeId) (index : Nat) (child : NodeId) : Arena :=
  a.relink parent (·.insertIdx index child) child (some parent)

/-- The child at an index of the list of `parent`. -/
def childAt? (a : Arena) (parent : NodeId) (index : Nat) : Option NodeId :=
  a.slots[parent]?.bind fun s => s.children[index]?

/-- Take the child at an index from the list of `parent`, and clear its
parent. Without such a child there is nothing to do. -/
def unlink (a : Arena) (parent : NodeId) (index : Nat) : Arena :=
  match a.childAt? parent index with
  | none => a
  | some child => a.relink parent (·.eraseIdx index) child none

/-- Write another text. -/
def retext (a : Arena) (leaf : NodeId) (text : String) : Arena where
  slots := a.slots.modify leaf fun s => { s with text := some text }
  revision := a.revision + 1

/-- Take back one change. -/
def undo (a : Arena) : Undo → Arena
  | .attached parent index => a.unlink parent index
  | .detached parent index child => a.link parent index child
  | .retexted leaf previous => a.retext leaf previous

/-- A write that finds the slots and the index it uses. A child that is
linked has no parent before. -/
inductive Write (a : Arena) : Arena → Prop
  | alloc (kind : Kind) (text : Option String) : Write a (a.alloc kind text)
  | link {p c : NodeId} {i : Nat} {above below : Slot}
      (hp : a.slots[p]? = some above) (hi : i ≤ above.children.length)
      (hc : a.slots[c]? = some below) (hfree : below.parent = none) :
      Write a (a.link p i c)
  | unlink {p c : NodeId} {i : Nat} {below : Slot}
      (hi : a.childAt? p i = some c) (hc : a.slots[c]? = some below)
      (hparent : below.parent = some p) : Write a (a.unlink p i)
  | retext {n : NodeId} {s : Slot} (text : String)
      (hn : a.slots[n]? = some s) (htoken : s.text.isSome) :
      Write a (a.retext n text)

/-- Any number of writes, one after the other. -/
abbrev Writes : Arena → Arena → Prop :=
  Relation.ReflTransGen Write

end Arena

namespace Tree

/-- What a tree says about one node. -/
def slot? (t : Tree) (n : NodeId) : Option Slot :=
  (t.kind? n).map fun kind =>
    { kind, text := t.tokenText? n, parent := t.parent? n,
      children := t.children n }

/-- The table of a tree. -/
def arena (t : Tree) : Arena where
  slots := (List.range t.count).filterMap t.slot?
  revision := t.revision

variable {t u : Tree} {m n p c : NodeId} {i : Nat}

/-- A node has a kind if it stands in the forest. -/
theorem kind?_isSome_iff : (t.kind? n).isSome ↔ n ∈ t.forest.ids := by
  rw [kind?, subtree]
  constructor
  · intro hk
    by_contra hn
    rw [(Forest.subtree?_eq_none_iff n _).mpr hn] at hk
    cases hk
  · intro hn
    obtain ⟨s, hs⟩ := Forest.exists_subtree hn
    rw [hs]
    rcases Forest.eq_of_roots_eq_singleton (Forest.roots_subtree? hs) with
      ⟨k, x, rfl⟩ | ⟨k, d, rfl⟩ <;> rfl

/-- A list made of answers, none of which is missing, has them in their
places. -/
theorem filterMap_range {α : Type} {g : Nat → Option α} {k : Nat}
    (hg : ∀ n < k, (g n).isSome) :
    ((List.range k).filterMap g).length = k ∧
      ∀ n < k, ((List.range k).filterMap g)[n]? = g n := by
  induction k with
  | zero => exact ⟨rfl, fun n hn => absurd hn (Nat.not_lt_zero n)⟩
  | succ k ih =>
    obtain ⟨hlen, hget⟩ := ih fun n hn => hg n (Nat.lt_succ_of_lt hn)
    obtain ⟨x, hx⟩ := Option.isSome_iff_exists.mp (hg k (Nat.lt_succ_self k))
    have hlast : [k].filterMap g = [x] := by simp [hx]
    rw [List.range_succ, List.filterMap_append, hlast]
    refine ⟨by simp [hlen], fun n hn => ?_⟩
    rcases Nat.lt_succ_iff_lt_or_eq.mp hn with hn | rfl
    · rw [List.getElem?_append_left (hlen.symm ▸ hn), hget n hn]
    · rw [List.getElem?_append_right (Nat.le_of_eq hlen), hlen, hx]
      simp

theorem Sound.slot?_isSome_iff (h : t.Sound) :
    (t.slot? n).isSome ↔ n < t.count := by
  rw [slot?, Option.isSome_map, kind?_isSome_iff, h.mem_ids]

theorem Sound.length_slots (h : t.Sound) : t.arena.slots.length = t.count :=
  (filterMap_range fun _ hn => h.slot?_isSome_iff.mpr hn).1

/-- The table has for each identity what the tree says about it. -/
theorem Sound.slot_arena (h : t.Sound) (n : NodeId) :
    t.arena.slots[n]? = t.slot? n := by
  by_cases hn : n < t.count
  · exact (filterMap_range fun _ hn => h.slot?_isSome_iff.mpr hn).2 n hn
  · rw [List.getElem?_eq_none (h.length_slots.symm ▸ Nat.le_of_not_lt hn)]
    cases hs : t.slot? n with
    | none => rfl
    | some s => exact absurd (h.slot?_isSome_iff.mp (by rw [hs]; rfl)) hn

/-- A table is that of a tree if it has what the tree says. -/
theorem Sound.arena_eq (h : t.Sound) {a : Arena}
    (hslots : ∀ n, a.slots[n]? = t.slot? n)
    (hrevision : a.revision = t.revision) : t.arena = a := by
  have hsame : t.arena.slots = a.slots :=
    List.ext_getElem? fun n => (h.slot_arena n).trans (hslots n).symm
  obtain ⟨slots, revision⟩ := a
  cases hsame
  cases hrevision
  rfl

/-! ## Kinds and texts -/

/-- Kind and text of a slot are the label of its node. -/
theorem Sound.mem_labels_iff (h : t.Sound) {k : Kind} {y : Option String} :
    (n, k, y) ∈ t.forest.labels ↔ t.kind? n = some k ∧ t.tokenText? n = y := by
  constructor
  · exact kind?_of_mem_labels h
  · rintro ⟨hk, hy⟩
    have hn : n ∈ t.forest.ids := kind?_isSome_iff.mp (by rw [hk]; rfl)
    obtain ⟨s, hs⟩ := Forest.exists_subtree hn
    rw [kind?, subtree_of_subtree? hs] at hk
    rw [tokenText?, subtree_of_subtree? hs] at hy
    exact (Forest.mem_labels_iff h.nodup).mpr ⟨s, hs, hk, hy⟩

/-- Two trees that hold the same kinds and texts differ in links at most. -/
theorem Sound.slot?_of_labels (h : t.Sound) (hu : u.Sound)
    (hl : u.forest.labels.Perm t.forest.labels) (n : NodeId) :
    u.slot? n = (t.slot? n).map fun s =>
      { s with parent := u.parent? n, children := u.children n } := by
  cases hk : t.kind? n with
  | some k =>
    have hmem := hl.mem_iff.mpr (h.mem_labels_iff.mpr ⟨hk, rfl⟩)
    obtain ⟨hk', hy'⟩ := hu.mem_labels_iff.mp hmem
    simp only [slot?, hk, hk', hy', Option.map_some]
  | none =>
    have hids := Forest.ids_perm_of_labels_perm hl
    have hk' : u.kind? n = none := by
      rw [← Option.not_isSome_iff_eq_none, kind?_isSome_iff, hids.mem_iff,
        ← kind?_isSome_iff, hk]
      simp
    simp only [slot?, hk, hk', Option.map_none]

/-- Where the children of one node and the parent of another have changed,
two slots are written. -/
theorem arena_relink {change : List NodeId → List NodeId}
    {above : Option NodeId} (h : t.Sound) (hu : u.Sound)
    (hl : u.forest.labels.Perm t.forest.labels)
    (hrevision : u.revision = t.revision + 1)
    (hchildren : ∀ n, u.children n =
      if n = p then change (t.children n) else t.children n)
    (hparent : ∀ n, u.parent? n = if n = c then above else t.parent? n) :
    u.arena = t.arena.relink p change c above := by
  refine hu.arena_eq (fun n => ?_) hrevision.symm
  rw [h.slot?_of_labels hu hl, hchildren, hparent, Arena.relink,
    List.getElem?_modify, List.getElem?_modify, h.slot_arena, slot?]
  cases t.kind? n with
  | none => rfl
  | some k =>
    simp only [Option.map_some, Option.map_eq_map, @eq_comm _ p, @eq_comm _ c]
    split_ifs <;> rfl

/-! ## Grafts -/

/-- Insertion at an index, as what comes before it, the new entry, and what
comes behind. -/
theorem insertIdx_eq {l : List NodeId} (h : i ≤ l.length) :
    l.insertIdx i c = l.take i ++ c :: l.drop i := by
  induction l generalizing i with
  | nil =>
    obtain rfl : i = 0 := Nat.le_zero.mp h
    rfl
  | cons a l ih =>
    cases i with
    | zero => rfl
    | succ i => simp [ih (Nat.le_of_succ_le_succ h)]

/-- Below a node that is grafted everything stays as it is. -/
theorem subtree_below {s : Forest} (h : t.Sound) (hu : u.Sound)
    (hs : t.forest.subtree? c = some s) (hs' : u.forest.subtree? c = some s)
    (hn : n ∈ s.ids) : u.subtree n = t.subtree n := by
  rw [subtree, subtree, ← Forest.subtree?_subtree? h.nodup hs hn,
    ← Forest.subtree?_subtree? hu.nodup hs' hn]

/-- **A graft changes the children of the new parent only.** Whoever stands
in the grafted tree keeps its children with it, and all others never had the
tree below them. -/
theorem Graftable.children_of_ne (g : t.Graftable p i c) (h : t.Sound)
    (hn : n ≠ p) : (t.graft p i c).children n = t.children n := by
  obtain ⟨hs, hroots, hp⟩ := g.parts h
  by_cases hbelow : n ∈ (t.subtree c).ids
  · have hs' : (t.graft p i c).forest.subtree? c = some (t.subtree c) :=
      Forest.subtree?_insertUnder_self i hroots
        (Forest.not_mem_remove h.nodup) hp
    rw [children, children, subtree_below h (g.sound h) hs hs' hbelow]
  · have hc : c ∉ t.children n := by
      rw [← h.parent?_eq_some_iff, g.child_detached]
      simp
    rw [children_eq_roots, graft,
      Forest.roots_offspring_insertUnder i hn hbelow,
      roots_offspring_remove h hs hbelow, List.erase_of_not_mem hc]

theorem Graftable.children_graft (g : t.Graftable p i c) (h : t.Sound)
    (n : NodeId) : (t.graft p i c).children n =
      if n = p then (t.children n).insertIdx i c else t.children n := by
  split_ifs with hn
  · subst hn
    rw [g.children_parent h, List.append_assoc, List.singleton_append]
    exact (insertIdx_eq g.bound).symm
  · exact g.children_of_ne h hn

/-- A graft gives the child a parent, and no other node another one. -/
theorem Graftable.parent?_graft (g : t.Graftable p i c) (h : t.Sound)
    (n : NodeId) : (t.graft p i c).parent? n =
      if n = c then some p else t.parent? n := by
  refine Option.ext fun q => ?_
  rw [(g.sound h).parent?_eq_some_iff, g.children_graft h]
  have hold : n ∈ t.children q ↔ t.parent? n = some q :=
    h.parent?_eq_some_iff.symm
  by_cases hq : q = p
  · subst hq
    rw [if_pos rfl, List.mem_insertIdx g.bound, hold]
    split_ifs with hn
    · simp [hn]
    · simp [hn]
  · rw [if_neg hq, hold]
    split_ifs with hn
    · subst hn
      rw [g.child_detached]
      simp [Ne.symm hq]
    · rfl

/-- A graft is a link in the table. -/
theorem arena_graft (h : t.Sound) (g : t.Graftable p i c) :
    (t.graft p i c).arena = t.arena.link p i c :=
  arena_relink h (g.sound h) (g.labels h) rfl (g.children_graft h)
    (g.parent?_graft h)

/-! ## Cuts -/

theorem mem_children_iff_of_childAt (h : t.Sound)
    (hi : (t.children p)[i]? = some c) (n : NodeId) :
    c ∈ t.children n ↔ n = p := by
  have hp := h.parent?_eq_some_iff.mpr (List.mem_of_getElem? hi)
  rw [← h.parent?_eq_some_iff, hp, Option.some.injEq, eq_comm]

/-- **A cut changes the children of the old parent only.** Whoever stands in
the tree that is cut off keeps its children with it. -/
theorem children_cut (h : t.Sound) (hi : (t.children p)[i]? = some c)
    (n : NodeId) : (t.cut c).children n =
      if n = p then (t.children n).eraseIdx i else t.children n := by
  obtain ⟨s, hs⟩ := Forest.exists_subtree
    (contains_iff_mem.mp (contains_of_childAt h hi).2)
  split_ifs with hn
  · subst hn
    obtain ⟨hlt, rfl⟩ := List.getElem?_eq_some_iff.mp hi
    rw [children_cut_parent h hi, (h.nodup_children n).erase_getElem i hlt]
  · by_cases hbelow : n ∈ s.ids
    · have hs' : (t.cut c).forest.subtree? c = some s := by
        simp only [cut, subtree_of_subtree? hs]
        exact Forest.subtree?_place_self (Forest.roots_subtree? hs)
          (Forest.not_mem_remove h.nodup)
      rw [children, children,
        subtree_below h (sound_cut h hi) hs hs' hbelow]
    · have hout : n ∉ t.descendants c := by
        rwa [descendants, subtree_of_subtree? hs]
      have hc : c ∉ t.children n := fun hm =>
        hn ((mem_children_iff_of_childAt h hi n).mp hm)
      rw [children_cut_of_not_mem h hi hout, List.erase_of_not_mem hc]

/-- A cut leaves the child without a parent, and every other node with the
one it had. -/
theorem parent?_cut (h : t.Sound) (hi : (t.children p)[i]? = some c)
    (n : NodeId) : (t.cut c).parent? n =
      if n = c then none else t.parent? n := by
  obtain ⟨hlt, hget⟩ := List.getElem?_eq_some_iff.mp hi
  refine Option.ext fun q => ?_
  rw [(sound_cut h hi).parent?_eq_some_iff, children_cut h hi]
  have hold : n ∈ t.children q ↔ t.parent? n = some q :=
    h.parent?_eq_some_iff.symm
  by_cases hq : q = p
  · subst hq
    rw [if_pos rfl, ← (h.nodup_children q).erase_getElem i hlt, hget,
      (h.nodup_children q).mem_erase_iff, hold]
    split_ifs with hn
    · simp [hn]
    · simp [hn]
  · rw [if_neg hq, hold]
    split_ifs with hn
    · subst hn
      rw [← hold, mem_children_iff_of_childAt h hi]
      simp [hq]
    · rfl

/-- A child that is looked up by its index is found in the table. -/
theorem childAt?_arena (h : t.Sound) (p : NodeId) (i : Nat) :
    t.arena.childAt? p i = (t.children p)[i]? := by
  rw [Arena.childAt?, h.slot_arena, slot?]
  cases hk : t.kind? p with
  | some k => rfl
  | none =>
    have hp : p ∉ t.forest.ids := by
      rw [← kind?_isSome_iff, hk]
      simp
    rw [children_eq_roots, Forest.offspring_of_not_mem hp]
    rfl

/-- A cut is a link taken from the table. -/
theorem arena_cut (h : t.Sound) (hi : (t.children p)[i]? = some c) :
    (t.cut c).arena = t.arena.unlink p i := by
  rw [Arena.unlink, childAt?_arena h, hi]
  exact arena_relink h (sound_cut h hi)
    (labels_cut h (contains_of_childAt h hi).2) rfl (children_cut h hi)
    (parent?_cut h hi)

/-! ## New texts and new nodes -/

/-- A new text leaves the label of every other node. -/
theorem label_retext_of_ne (h : t.Sound) (y : String) (hm : m ≠ n) :
    (t.retext n y).kind? m = t.kind? m ∧
      (t.retext n y).tokenText? m = t.tokenText? m := by
  have hu := sound_retext h n y
  have hkeeps : Forest.KeepsBut [n] t.forest (t.retext n y).forest :=
    Forest.keepsBut_setText n y t.forest
  have hout : m ∉ [n] := by simpa using hm
  by_cases hmem : m ∈ t.forest.ids
  · obtain ⟨k, hk⟩ := Option.isSome_iff_exists.mp (kind?_isSome_iff.mpr hmem)
    have hlabel := (hkeeps.mem_labels_iff hout).mpr
      (h.mem_labels_iff.mpr ⟨hk, rfl⟩)
    rw [hk]
    exact hu.mem_labels_iff.mp hlabel
  · have hmem' : m ∉ (t.retext n y).forest.ids := by
      rwa [hkeeps.mem_iff hout]
    rw [kind?, kind?, tokenText?, tokenText?, subtree, subtree,
      (Forest.subtree?_eq_none_iff m _).mpr hmem,
      (Forest.subtree?_eq_none_iff m _).mpr hmem']
    exact ⟨rfl, rfl⟩

/-- A new text is written to one slot. -/
theorem arena_retext {x : String} (h : t.Sound)
    (hx : t.tokenText? n = some x) (y : String) :
    (t.retext n y).arena = t.arena.retext n y := by
  refine (sound_retext h n y).arena_eq (fun m => ?_) rfl
  have hchildren : (t.retext n y).children m = t.children m :=
    Forest.roots_offspring_setText n y t.forest
  have hparent : (t.retext n y).parent? m = t.parent? m := by
    rw [parent?, parent?, ancestors, ancestors, retext,
      Forest.ancestors?_setText]
  rw [Arena.retext, List.getElem?_modify, h.slot_arena, slot?, slot?,
    hchildren, hparent]
  by_cases hm : m = n
  · subst hm
    obtain ⟨k, hk⟩ := subtree?_of_tokenText? hx
    have hk' : (t.retext m y).subtree m = .token m k y .nil :=
      subtree_of_subtree? (Forest.subtree?_setText_self y hk)
    simp [kind?, tokenText?, hk', subtree_of_subtree? hk, Forest.rootKind?,
      Forest.rootText?]
  · obtain ⟨hkind, htext⟩ := label_retext_of_ne h y hm
    simp [hkind, htext, Ne.symm hm]

/-- A node on its own is written behind all others. -/
theorem arena_grow {x : Forest} {k : Kind} {y : Option String}
    (h : t.Sound) (s : Seed t x) (hx : x.labels = [(t.count, k, y)]) :
    (t.grow x).arena = t.arena.alloc k y := by
  have hu := h.grow s
  have hnew : t.count ∉ t.forest.ids := fun hm =>
    Nat.lt_irrefl _ ((h.mem_ids _).mp hm)
  obtain ⟨hparent, hchildren⟩ := alone_of_append hu rfl s.scattered hnew
    (by rw [s.ids]; exact List.mem_singleton.mpr rfl)
  obtain ⟨hkind, htext⟩ := hu.mem_labels_iff.mp
    (show (t.count, k, y) ∈ (t.grow x).forest.labels by
      simp [grow, Forest.labels_append, hx])
  refine hu.arena_eq (fun m => ?_) rfl
  rw [Arena.alloc]
  rcases Nat.lt_trichotomy m t.count with hm | rfl | hm
  · have hsame := sameNode_of_append (n := m) (u := t.grow x) rfl
      (h.contains_iff.mpr hm)
    rw [List.getElem?_append_left (h.length_slots.symm ▸ hm), h.slot_arena,
      slot?, slot?, hsame.kind, hsame.text, hsame.parent, hsame.children]
  · rw [List.getElem?_append_right (Nat.le_of_eq h.length_slots),
      h.length_slots, Nat.sub_self, slot?, hkind, htext, hparent, hchildren]
    rfl
  · have hnone : (t.grow x).slot? m = none := by
      rw [← Option.not_isSome_iff_eq_none, hu.slot?_isSome_iff]
      exact Nat.not_lt.mpr hm
    rw [hnone, List.getElem?_eq_none]
    rw [List.length_append, h.length_slots]
    exact hm

/-! ## Taking changes back -/

/-- Taking a change back writes the opposite. -/
theorem arena_undo {e : Undo} (h : t.Sound) (hfit : t.Fits e) :
    (t.undo e).arena = t.arena.undo e := by
  cases e with
  | attached p i =>
    obtain ⟨c, hi⟩ := exists_childAt hfit
    simp only [undo, hi]
    exact arena_cut h hi
  | detached p i c => exact arena_graft h hfit
  | retexted n x =>
    obtain ⟨y, hy⟩ := Option.isSome_iff_exists.mp hfit
    exact arena_retext h hy x

theorem arena_takenBack {es : List Undo} (h : t.Sound)
    (hr : Replayable es t) :
    (takenBack es t).arena = es.foldl Arena.undo t.arena := by
  induction es generalizing t with
  | nil => rfl
  | cons e es ih =>
    rw [List.foldl_cons, ← arena_undo h hr.1]
    exact ih (h.undo hr.1) hr.2

/-- The journal says nothing about the table. -/
theorem arena_congr (hf : u.forest = t.forest) (hc : u.count = t.count)
    (hr : u.revision = t.revision) : u.arena = t.arena := by
  obtain ⟨f, k, j, r⟩ := t
  obtain ⟨f', k', j', r'⟩ := u
  cases hf
  cases hc
  cases hr
  rfl

/-- **A rollback** takes the entries above the mark back, latest first, each
by the opposite write. -/
theorem arena_rollback (h : t.Consistent) (c : Checkpoint) :
    (t.rollback c).arena =
      (t.journal.entries.take (t.journal.entries.length - c.mark)).foldl
        Arena.undo t.arena := by
  have hr := h.replayable
  rw [← List.take_append_drop (t.journal.entries.length - c.mark)
    t.journal.entries, replayable_append] at hr
  rw [← arena_takenBack h.sound hr.1, rollback, close, unwind_eq]
  exact arena_congr rfl rfl rfl

/-! ## The forest a table stands for -/

/-- A part of a forest, in which every node is found as in the whole. -/
structure PartOf (f x : Forest) : Prop where
  nodup : x.ids.Nodup
  found : ∀ n ∈ x.ids, f.subtree? n = x.subtree? n

namespace PartOf

variable {f c r : Forest} {i : NodeId} {k : Kind} {y : String}

theorem afterToken (h : PartOf f (.token i k y r)) : PartOf f r := by
  obtain ⟨hi, hr⟩ := Forest.nodup_token.mp h.nodup
  refine ⟨hr, fun n hn => ?_⟩
  have hne : i ≠ n := fun heq => hi (heq ▸ hn)
  rw [h.found n (List.mem_cons_of_mem _ hn), Forest.subtree?, if_neg hne]

theorem below (h : PartOf f (.node i k c r)) : PartOf f c := by
  obtain ⟨hi, -, hc, -, -⟩ := Forest.nodup_node.mp h.nodup
  refine ⟨hc, fun n hn => ?_⟩
  have hne : i ≠ n := fun heq => hi (heq ▸ hn)
  obtain ⟨s, hs⟩ := Forest.exists_subtree hn
  rw [h.found n (List.mem_cons_of_mem _ (List.mem_append_left _ hn)),
    Forest.subtree?, if_neg hne, hs, Option.some_or]

theorem afterNode (h : PartOf f (.node i k c r)) : PartOf f r := by
  obtain ⟨-, hi, -, hr, hd⟩ := Forest.nodup_node.mp h.nodup
  refine ⟨hr, fun n hn => ?_⟩
  have hne : i ≠ n := fun heq => hi (heq ▸ hn)
  have hnone : c.subtree? n = none :=
    (Forest.subtree?_eq_none_iff n c).mpr fun hc => hd hc hn
  rw [h.found n (List.mem_cons_of_mem _ (List.mem_append_right _ hn)),
    Forest.subtree?, if_neg hne, hnone, Option.none_or]

end PartOf

theorem slot?_of_token {i : NodeId} {k : Kind} {y : String} {r : Forest}
    (h : PartOf t.forest (.token i k y r)) : t.slot? i =
      some { kind := k, text := some y, parent := t.parent? i } := by
  have hi : t.subtree i = .token i k y .nil := subtree_of_subtree?
    ((h.found i List.mem_cons_self).trans (by rw [Forest.subtree?, if_pos rfl]))
  rw [slot?, kind?, tokenText?, children, hi]
  rfl

/-- The slot of a node, read off the part that starts with it: its children
are the outermost nodes below it. -/
theorem slot?_of_node {i : NodeId} {k : Kind} {d r : Forest}
    (h : PartOf t.forest (.node i k d r)) : t.slot? i =
      some { kind := k, text := none, parent := t.parent? i,
             children := d.roots } := by
  have hi : t.subtree i = .node i k d .nil := subtree_of_subtree?
    ((h.found i List.mem_cons_self).trans (by rw [Forest.subtree?, if_pos rfl]))
  rw [slot?, kind?, tokenText?, children, hi]
  rfl

/-- Parts of two trees that say the same about every node are the same, if
they have the same roots. The children of a node are the roots of the part
below it, so the recursion is that of the forest. -/
theorem eq_of_slots {x y : Forest} (hx : PartOf t.forest x)
    (hy : PartOf u.forest y) (hslots : ∀ n, u.slot? n = t.slot? n)
    (hroots : y.roots = x.roots) : y = x := by
  -- By induction on the one forest; the slot of the first root says what
  -- the other begins with.
  induction x generalizing y with
  | nil =>
    cases y with
    | nil => rfl
    | token => cases hroots
    | node => cases hroots
  | token i k a r ih =>
    cases y with
    | nil => cases hroots
    | token j k' a' r' =>
      obtain ⟨rfl, hrest⟩ := List.cons.inj hroots
      have hslot := hslots j
      rw [slot?_of_token hx, slot?_of_token hy] at hslot
      simp only [Option.some.injEq, Slot.mk.injEq] at hslot
      obtain ⟨rfl, rfl, -⟩ := hslot
      rw [ih hx.afterToken hy.afterToken hrest]
    | node j k' d r' =>
      obtain ⟨rfl, -⟩ := List.cons.inj hroots
      have hslot := hslots j
      rw [slot?_of_token hx, slot?_of_node hy] at hslot
      cases hslot
  | node i k d r ihd ihr =>
    cases y with
    | nil => cases hroots
    | token j k' a r' =>
      obtain ⟨rfl, -⟩ := List.cons.inj hroots
      have hslot := hslots j
      rw [slot?_of_node hx, slot?_of_token hy] at hslot
      cases hslot
    | node j k' d' r' =>
      obtain ⟨rfl, hrest⟩ := List.cons.inj hroots
      have hslot := hslots j
      rw [slot?_of_node hx, slot?_of_node hy] at hslot
      simp only [Option.some.injEq, Slot.mk.injEq, true_and] at hslot
      obtain ⟨rfl, -, hbelow⟩ := hslot
      rw [ihd hx.below hy.below hbelow, ihr hx.afterNode hy.afterNode hrest]

/-- **The table determines the forest.** -/
theorem forest_eq_of_arena_eq (h : t.Sound) (hu : u.Sound)
    (ha : u.arena = t.arena) : u.forest = t.forest := by
  have hslots : ∀ n, u.slot? n = t.slot? n := fun n => by
    rw [← hu.slot_arena, ← h.slot_arena, ha]
  -- the outermost trees are those of the nodes without a parent
  have hmem : ∀ {v : Tree}, v.Sound → ∀ n,
      n ∈ v.forest.roots ↔ ∃ s, v.slot? n = some s ∧ s.parent = none := by
    intro v hv n
    rw [hv.mem_roots_iff, hv.contains_iff, ← hv.slot?_isSome_iff, slot?]
    cases v.kind? n <;> simp
  refine eq_of_slots ⟨h.nodup, fun _ _ => rfl⟩ ⟨hu.nodup, fun _ _ => rfl⟩
    hslots (hu.sorted.eq_of_mem_iff h.sorted fun n => ?_)
  rw [hmem hu, hmem h, hslots]

/-! ## Runs -/

/-- The slot of a node that is there. -/
theorem Sound.exists_slot (h : t.Sound) (hn : t.contains n = true) :
    ∃ s, t.arena.slots[n]? = some s ∧ s.text = t.tokenText? n ∧
      s.parent = t.parent? n ∧ s.children = t.children n := by
  obtain ⟨k, hk⟩ := Option.isSome_iff_exists.mp
    (kind?_isSome_iff.mpr (contains_iff_mem.mp hn))
  rw [h.slot_arena, slot?, hk]
  exact ⟨_, rfl, rfl, rfl, rfl⟩

theorem write_graft (h : t.Sound) (g : t.Graftable p i c) :
    t.arena.Write (t.graft p i c).arena := by
  obtain ⟨above, hp, -, -, hchildren⟩ := h.exists_slot g.parent_exists
  obtain ⟨below, hc, -, hparent, -⟩ := h.exists_slot g.child_exists
  rw [arena_graft h g]
  exact .link hp (hchildren ▸ g.bound) hc (hparent.trans g.child_detached)

theorem write_cut (h : t.Sound) (hi : (t.children p)[i]? = some c) :
    t.arena.Write (t.cut c).arena := by
  obtain ⟨below, hc, -, hparent, -⟩ :=
    h.exists_slot (contains_of_childAt h hi).2
  have hp := h.parent?_eq_some_iff.mpr (List.mem_of_getElem? hi)
  rw [arena_cut h hi]
  exact .unlink ((childAt?_arena h p i).trans hi) hc (hparent.trans hp)

theorem write_retext {x : String} (h : t.Sound)
    (hx : t.tokenText? n = some x) (y : String) :
    t.arena.Write (t.retext n y).arena := by
  obtain ⟨s, hn, htext, -, -⟩ := h.exists_slot
    (contains_of_isLeaf (by rw [isLeaf, hx]; rfl))
  rw [arena_retext h hx]
  exact .retext y hn (by rw [htext, hx]; rfl)

theorem write_change {e : Undo} (h : t.Sound) (hc : Change t e u) :
    t.arena.Write u.arena := by
  cases hc with
  | graft g => exact write_graft h g
  | cut hi => exact write_cut h hi
  | retext y hx => exact write_retext h hx y

theorem write_grow {x : Forest} (h : t.Sound) (s : Seed t x) :
    t.arena.Write (t.grow x).arena := by
  have hlabel : ∃ k y, x.labels = [(t.count, k, y)] := by
    cases s with
    | token k y => exact ⟨k, some y, rfl⟩
    | node k => exact ⟨k, none, rfl⟩
  obtain ⟨k, y, hx⟩ := hlabel
  rw [arena_grow h s hx]
  exact .alloc k y

theorem arena_record (t : Tree) (e : Undo) : (t.record e).arena = t.arena := by
  rw [record]
  split_ifs <;> rfl

/-- Changes are writes. -/
theorem writes_changes (h : t.Sound) (hc : Changes t u) :
    t.arena.Writes u.arena := by
  induction hc with
  | refl => exact .refl
  | tail hbefore hstep ih =>
    cases hstep with
    | @intro e v hc =>
      refine ih.tail ?_
      rw [arena_record]
      exact write_change (h.changes hbefore) hc

theorem writes_takenBack {es : List Undo} (h : t.Sound)
    (hr : Replayable es t) : t.arena.Writes (takenBack es t).arena := by
  induction es generalizing t with
  | nil => exact .refl
  | cons e es ih =>
    obtain ⟨e', hc⟩ := Fits.change hr.1
    exact .head (write_change h hc) (ih (h.undo hr.1) hr.2)

/-- **Step.** Whatever an operation comes down to is done by writes. -/
theorem writes_effect {op : Op} (h : t.Consistent) (he : Effect t op u) :
    t.arena.Writes u.arena := by
  cases he with
  | changed hc => exact writes_changes h.sound hc
  | created s => exact .single (write_grow h.sound s)
  | attached s g =>
    rw [arena_record]
    exact .tail (.single (write_grow h.sound s))
      (write_graft (h.sound.grow s) g)
  | opened => exact .refl
  | committed c => exact .refl
  | rolledBack c =>
    have hr := h.replayable
    rw [← List.take_append_drop (t.journal.entries.length - c.mark)
      t.journal.entries, replayable_append] at hr
    rw [arena_rollback h, ← arena_takenBack h.sound hr.1]
    exact writes_takenBack h.sound hr.1

/-- **Whatever is done** to a tree that was built comes down to writes, and
every one of them finds what it uses. -/
theorem writes_run (kind : Kind) (events : List BuildEvent)
    (ops : List Op) :
    (Tree.build kind events).arena.Writes
      (Op.run (Tree.build kind events) ops).arena := by
  have hrun : ∀ {t : Tree}, t.Consistent →
      t.arena.Writes (Op.run t ops).arena := by
    induction ops with
    | nil => exact fun _ => .refl
    | cons op ops ih =>
      intro t h
      exact (writes_effect h (apply_effect h.sound op)).trans
        (ih (h.apply op))
  exact hrun (consistent_build kind events)

end Tree

end TreeLint
