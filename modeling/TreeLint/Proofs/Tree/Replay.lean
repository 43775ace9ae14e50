import TreeLint.Proofs.Tree.Effect

/-!
# Taking changes back

An entry of the journal only makes sense in the tree its change left behind:
the index it names has to be there. `Fits` says what taking one entry back
needs to find, and `Replayable` that a list of entries, taken back one after
the other, always finds it. A change leaves a tree that its entry fits and
takes back exactly (`Change.fits`, `Change.undo_forest`), and nodes created
in the meantime are in nobody's way (`Replayable.grow`).

Specification, §4.3.
-/

namespace TreeLint.Tree

variable {t u : Tree} {n p c : NodeId} {i : Nat} {e : Undo} {es : List Undo}

/-- What taking back a change needs to find: a child at the index to take it
from, a place at the index to put it back, a token. -/
def Fits (t : Tree) : Undo → Prop
  | .attached p i => i < (t.children p).length
  | .detached p i c => t.Graftable p i c
  | .retexted n _ => t.isLeaf n = true

/-- Each entry fits when its turn comes. -/
def Replayable : List Undo → Tree → Prop
  | [], _ => True
  | e :: es, t => t.Fits e ∧ Replayable es (t.undo e)

/-- The tree after taking back some entries. -/
def takenBack (es : List Undo) (t : Tree) : Tree := es.foldl undo t

/-! ## Only the forest matters

Taking entries back asks nothing of the journal they came from, so two trees
with one forest give the same result. -/

theorem Graftable.congr (g : t.Graftable p i c) (hf : u.forest = t.forest) :
    u.Graftable p i c := by
  obtain ⟨f, _, _, _⟩ := t
  obtain ⟨f', _, _, _⟩ := u
  obtain rfl : f' = f := hf
  exact ⟨g.1, g.2, g.3, g.4, g.5, g.6, g.7⟩

theorem Fits.congr (h : t.Fits e) (hf : u.forest = t.forest) : u.Fits e := by
  cases e with
  | attached p i => simpa only [Fits, children, subtree, hf] using h
  | detached p i c => exact Graftable.congr h hf
  | retexted n x => simpa only [Fits, isLeaf, tokenText?, subtree, hf] using h

theorem undo_forest_congr (e : Undo) (hf : u.forest = t.forest) :
    (u.undo e).forest = (t.undo e).forest := by
  cases e with
  | attached p i =>
    have hkids : u.children p = t.children p := by
      simp only [children, subtree, hf]
    simp only [undo, hkids]
    cases (t.children p)[i]? with
    | none => exact hf
    | some c => simp only [cut, subtree, hf]
  | detached p i c => simp only [undo, graft, subtree, hf]
  | retexted n x => simp only [undo, retext, hf]

@[simp] theorem undo_count (t : Tree) (e : Undo) :
    (t.undo e).count = t.count := by
  cases e with
  | attached p i => simp only [undo]; split <;> rfl
  | detached p i c => rfl
  | retexted n x => rfl

@[simp] theorem undo_journal (t : Tree) (e : Undo) :
    (t.undo e).journal = t.journal := by
  cases e with
  | attached p i => simp only [undo]; split <;> rfl
  | detached p i c => rfl
  | retexted n x => rfl

theorem Replayable.congr (h : Replayable es t) (hf : u.forest = t.forest) :
    Replayable es u := by
  induction es generalizing t u with
  | nil => trivial
  | cons e es ih => exact ⟨h.1.congr hf, ih h.2 (undo_forest_congr e hf)⟩

theorem takenBack_forest_congr (es : List Undo) (hf : u.forest = t.forest) :
    (takenBack es u).forest = (takenBack es t).forest := by
  induction es generalizing t u with
  | nil => exact hf
  | cons e es ih => exact ih (undo_forest_congr e hf)

/-! ## One change and its entry -/

theorem exists_childAt (hi : i < (t.children p).length) :
    ∃ c, (t.children p)[i]? = some c :=
  ⟨_, List.getElem?_eq_getElem hi⟩

theorem Sound.undo (h : t.Sound) (hfit : t.Fits e) : (t.undo e).Sound := by
  cases e with
  | attached p i =>
    obtain ⟨c, hi⟩ := exists_childAt hfit
    simp only [Tree.undo, hi]
    exact sound_cut h hi
  | detached p i c => exact Graftable.sound hfit h
  | retexted n x => exact sound_retext h n x

/-- A change leaves the tree that its entry needs. -/
theorem Change.fits (hc : Change t e u) (h : t.Sound) : u.Fits e := by
  cases hc with
  | graft g => exact (List.getElem?_eq_some_iff.mp (g.childAt h)).1
  | cut hi => exact graftable_cut h hi
  | retext y hx =>
    apply isLeaf_retext
    rw [isLeaf, hx, Option.isSome_some]

/-- The entry of a change takes it back. -/
theorem Change.undo_forest (hc : Change t e u) (h : t.Sound) :
    (u.undo e).forest = t.forest := by
  cases hc with
  | graft g => simpa only [Tree.undo, g.childAt h] using cut_graft h g
  | cut hi => exact graft_cut h hi
  | retext y hx => exact retext_retext h hx y

/-! ## Several entries -/

theorem Sound.takenBack (h : t.Sound) (hr : Replayable es t) :
    (takenBack es t).Sound := by
  induction es generalizing t with
  | nil => exact h
  | cons e es ih => exact ih (h.undo hr.1) hr.2

@[simp] theorem takenBack_count (es : List Undo) (t : Tree) :
    (takenBack es t).count = t.count := by
  induction es generalizing t with
  | nil => rfl
  | cons e es ih => exact (ih (t.undo e)).trans (undo_count t e)

@[simp] theorem takenBack_journal (es : List Undo) (t : Tree) :
    (takenBack es t).journal = t.journal := by
  induction es generalizing t with
  | nil => rfl
  | cons e es ih => exact (ih (t.undo e)).trans (undo_journal t e)

/-- Latest first: the front of the list is taken back before the rest. -/
theorem takenBack_append (es fs : List Undo) (t : Tree) :
    takenBack (es ++ fs) t = takenBack fs (takenBack es t) :=
  List.foldl_append

theorem replayable_append (es fs : List Undo) (t : Tree) :
    Replayable (es ++ fs) t ↔ Replayable es t ∧
      Replayable fs (takenBack es t) := by
  induction es generalizing t with
  | nil => exact (true_and _).symm.to_iff
  | cons e es ih =>
    simp only [List.cons_append, Replayable, ih, and_assoc]
    rfl

/-- Unwinding takes back what stands above the mark and leaves the rest in
the journal. -/
theorem unwind_eq (mark : Nat) (es : List Undo) (t : Tree) :
    unwind mark es t =
      { takenBack (es.take (es.length - mark)) t with
        journal := { t.journal with
          entries := es.drop (es.length - mark) } } := by
  induction es generalizing t with
  | nil => simp [unwind, takenBack]
  | cons e es ih =>
    simp only [unwind]
    split
    · next hm =>
      have hlen : (e :: es).length - mark = es.length - mark + 1 := by
        rw [List.length_cons]; omega
      rw [ih, hlen, List.take_succ_cons, List.drop_succ_cons, undo_journal]
      rfl
    · next hm =>
      have hlen : (e :: es).length - mark = 0 := by
        rw [List.length_cons]; omega
      rw [hlen]
      rfl

/-! ## Nodes created in the meantime

A node that is created stands alone behind all others. Entries made before
it know nothing of it, so taking them back works as if it were not there. -/

section Growth

variable {x : Forest}

theorem subtree_grow (hn : t.contains n = true) :
    (t.grow x).subtree n = t.subtree n := by
  obtain ⟨s, hs⟩ := Forest.exists_subtree (contains_iff_mem.mp hn)
  simp [subtree, Tree.grow, Forest.subtree?_append, hs]

theorem children_grow (hn : t.contains n = true) :
    (t.grow x).children n = t.children n := by
  simp only [children, subtree_grow hn]

theorem ancestors_grow (hn : t.contains n = true) :
    (t.grow x).ancestors n = t.ancestors n := by
  obtain ⟨as, ha⟩ := Forest.exists_ancestors (contains_iff_mem.mp hn)
  simp [ancestors, Tree.grow, Forest.ancestors?_append, ha]

theorem contains_grow (hn : t.contains n = true) :
    (t.grow x).contains n = true := by
  rw [contains_iff_mem] at hn ⊢
  simp [Tree.grow, hn]

/-- A node that was there before is not the new one. -/
theorem Seed.not_mem (s : Seed t x) (h : t.Sound)
    (hn : t.contains n = true) : n ∉ x.ids := by
  rw [s.ids, List.mem_singleton]
  exact Nat.ne_of_lt (h.contains_iff.mp hn)

theorem contains_of_lt_children (hi : i < (t.children p).length) :
    t.contains p = true := by
  rw [contains_iff_mem]
  by_contra hp
  simp [children_eq_roots, Forest.offspring_of_not_mem hp, Forest.roots] at hi

theorem contains_of_isLeaf (hn : t.isLeaf n = true) : t.contains n = true := by
  obtain ⟨y, hy⟩ := Option.isSome_iff_exists.mp hn
  obtain ⟨k, hk⟩ := subtree?_of_tokenText? hy
  exact contains_iff_mem.mpr (Forest.mem_of_subtree? hk)

/-- An entry that fits still fits with one more node about. -/
theorem Fits.grow (hfit : t.Fits e) : (t.grow x).Fits e := by
  cases e with
  | attached p i => rwa [Fits, children_grow (contains_of_lt_children hfit)]
  | detached p i c =>
    obtain ⟨hp, hl, hc, hd, hr, ho, hb⟩ := hfit
    refine ⟨contains_grow hp, ?_, contains_grow hc, ?_, hr, ?_, ?_⟩
    · rwa [isLeaf, tokenText?, subtree_grow hp]
    · rwa [parent?, ancestors_grow hc]
    · rwa [descendants, subtree_grow hc]
    · rwa [children_grow hp]
  | retexted n y =>
    rwa [Fits, isLeaf, tokenText?, subtree_grow (contains_of_isLeaf hfit)]

/-- It makes no difference whether a node is created before or after a
change is taken back. -/
theorem undo_grow (h : t.Sound) (s : Seed t x) (hfit : t.Fits e) :
    ((t.grow x).undo e).forest = ((t.undo e).grow x).forest := by
  cases e with
  | attached p i =>
    obtain ⟨c, hi⟩ := exists_childAt hfit
    have hc := (contains_of_childAt h hi).2
    have hlast : ∀ m ∈ x.roots, c < m := by
      intro m hm
      rw [s.roots, List.mem_singleton] at hm
      rw [hm]
      exact h.contains_iff.mp hc
    simp only [undo, children_grow (contains_of_lt_children hfit), hi, cut,
      subtree_grow hc]
    simp only [Tree.grow, Forest.remove_append (s.not_mem h hc),
      Forest.place_append _ hlast]
  | detached p i c =>
    have g : t.Graftable p i c := hfit
    simp only [undo, graft, subtree_grow g.child_exists]
    simp only [Tree.grow, Forest.remove_append (s.not_mem h g.child_exists),
      Forest.insertUnder_append i _ (s.not_mem h g.parent_exists)]
  | retexted n y =>
    simp only [undo, retext, Tree.grow,
      Forest.setText_append y (s.not_mem h (contains_of_isLeaf hfit))]

theorem Replayable.grow (hr : Replayable es t) (h : t.Sound) (s : Seed t x) :
    Replayable es (t.grow x) := by
  induction es generalizing t with
  | nil => trivial
  | cons e es ih =>
    have hnext := ih hr.2 (h.undo hr.1) (s.congr (undo_count t e))
    exact ⟨hr.1.grow, hnext.congr (undo_grow h s hr.1)⟩

theorem takenBack_grow (hr : Replayable es t) (h : t.Sound) (s : Seed t x) :
    (takenBack es (t.grow x)).forest = (takenBack es t).forest.append x := by
  induction es generalizing t with
  | nil => rfl
  | cons e es ih =>
    have hnext := ih hr.2 (h.undo hr.1) (s.congr (undo_count t e))
    exact (takenBack_forest_congr es (undo_grow h s hr.1)).trans hnext

end Growth

end TreeLint.Tree
