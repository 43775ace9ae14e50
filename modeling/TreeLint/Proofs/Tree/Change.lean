import TreeLint.Proofs.Forest.Inverse
import TreeLint.Proofs.Tree.Links
import TreeLint.Tree.Edit

/-!
# The changes edits are made of

Every edit grafts a detached tree, cuts a tree off its parent, or gives a
token a new text. Each of the three keeps a tree sound, leaves everything
ready for the opposite change, and is taken back exactly by it: `cut_graft`,
`graft_cut` and `retext_retext` say that the forest is then the one there
was before.

Specification, §3.
-/

namespace TreeLint.Tree

variable {t : Tree} {n p c : NodeId} {i : Nat}

/-- `c` is the root of a detached tree that can be put at index `i` among
the children of `p`. -/
structure Graftable (t : Tree) (p : NodeId) (i : Nat) (c : NodeId) : Prop where
  parent_exists : t.contains p = true
  parent_composite : t.isLeaf p = false
  child_exists : t.contains c = true
  child_detached : t.parent? c = none
  child_ne_root : c ≠ root
  outside : p ∉ t.descendants c
  bound : i ≤ (t.children p).length

/-- A node that exists and is no token is composite. -/
theorem isComposite_of_not_isLeaf (hp : t.contains p = true)
    (hl : t.isLeaf p = false) :
    t.forest.IsComposite p := by
  obtain ⟨s, hs⟩ := Forest.exists_subtree (contains_iff_mem.mp hp)
  rcases Forest.eq_of_roots_eq_singleton (Forest.roots_subtree? hs) with ⟨k, x,
    rfl⟩ | ⟨k, c, rfl⟩
  · simp [isLeaf, tokenText?, subtree_of_subtree? hs, Forest.rootText?] at hl
  · exact ⟨k, c, hs⟩

/-- A node that has a text is a token. -/
theorem subtree?_of_tokenText? {x : String} (h : t.tokenText? n = some x) :
    ∃ k, t.forest.subtree? n = some (.token n k x .nil) := by
  simp only [tokenText?, subtree] at h
  cases hs : t.forest.subtree? n with
  | none => simp [hs, Forest.rootText?] at h
  | some s =>
    rcases Forest.eq_of_roots_eq_singleton (Forest.roots_subtree? hs) with ⟨k,
      y, rfl⟩ | ⟨k, c, rfl⟩
    · simp only [hs, Option.getD_some, Forest.rootText?, Option.some.injEq] at h
      exact ⟨k, by rw [h]⟩
    · simp [hs, Forest.rootText?] at h

/-- Two forests with the same labels and one count hold the same nodes once
each. -/
theorem Sound.of_labels (h : t.Sound) {u : Tree}
    (hl : u.forest.labels.Perm t.forest.labels) (hc : u.count = t.count)
    (hs : u.forest.roots.Pairwise (· < ·)) (hr : root ∈ u.forest.roots) :
    u.Sound where
  nodup := (Forest.ids_perm_of_labels_perm hl).nodup_iff.mpr h.nodup
  mem_ids n := by rw [(Forest.ids_perm_of_labels_perm hl).mem_iff,
    h.mem_ids, hc]
  sorted := hs
  root_mem := hr

/-! ## Grafting -/

namespace Graftable

theorem parent_ne (g : t.Graftable p i c) : p ≠ c := by
  rintro rfl
  obtain ⟨s, hs⟩ := Forest.exists_subtree (contains_iff_mem.mp g.child_exists)
  apply g.outside
  rw [descendants, subtree_of_subtree? hs]
  exact Forest.mem_ids_of_roots_eq (Forest.roots_subtree? hs)

/-- What a graft works on: the tree of the child, taken out, and the parent
in what is left. -/
theorem parts (g : t.Graftable p i c) (h : t.Sound) :
    t.forest.subtree? c = some (t.subtree c) ∧ (t.subtree c).roots = [c] ∧
      (t.forest.remove c).IsComposite p := by
  obtain ⟨s, hs⟩ := Forest.exists_subtree (contains_iff_mem.mp g.child_exists)
  have hsub : t.subtree c = s := subtree_of_subtree? hs
  have hp : p ∉ s.ids := hsub ▸ g.outside
  obtain ⟨k, d, hd⟩ := isComposite_of_not_isLeaf g.parent_exists
    g.parent_composite
  refine ⟨hsub ▸ hs, hsub ▸ Forest.roots_subtree? hs, k, d.remove c, ?_⟩
  rw [Forest.subtree?_remove h.nodup hs hp, hd]
  simp [Forest.remove, g.parent_ne]

theorem labels (g : t.Graftable p i c) (h : t.Sound) :
    (t.graft p i c).forest.labels.Perm t.forest.labels := by
  obtain ⟨hs, -, hp⟩ := g.parts h
  have hput := Forest.labels_insertUnder i (t.subtree c)
    (Forest.nodup_remove h.nodup hs).2.1 hp
  exact hput.trans (Forest.labels_remove h.nodup hs).symm

theorem sound (g : t.Graftable p i c) (h : t.Sound) :
    (t.graft p i c).Sound := by
  have hroots : (t.graft p i c).forest.roots = t.forest.roots.erase c := by
    simp only [graft, Forest.roots_insertUnder, Forest.roots_remove]
  refine h.of_labels (g.labels h) rfl ?_ ?_
  · rw [hroots]
    exact h.sorted.sublist List.erase_sublist
  · rw [hroots]
    exact (List.mem_erase_of_ne g.child_ne_root.symm).mpr h.root_mem

/-- The children of `p` do not change when the detached tree of `c` is taken
out. -/
theorem offspring_remove (g : t.Graftable p i c) (h : t.Sound) :
    ((t.forest.remove c).offspring p).roots = t.children p := by
  obtain ⟨hs, -, -⟩ := g.parts h
  have hc : c ∉ t.children p := by
    rw [← h.parent?_eq_some_iff, g.child_detached]
    simp
  obtain ⟨k, d, hd⟩ := isComposite_of_not_isLeaf g.parent_exists
    g.parent_composite
  have hkids : t.children p = d.roots := by
    simp [children, subtree, hd, Forest.rootChildren]
  rw [hkids] at hc ⊢
  simp only [Forest.offspring, Forest.subtree?_remove h.nodup hs g.outside, hd,
    Option.map_some,
    Option.getD_some, Forest.remove, if_neg g.parent_ne, Forest.rootChildren,
      Forest.roots_remove,
    List.erase_of_not_mem hc]

/-- The children of `p` after the graft. -/
theorem children_parent (g : t.Graftable p i c) (h : t.Sound) :
    (t.graft p i c).children p = (t.children p).take i ++ [c] ++
      (t.children p).drop i := by
  obtain ⟨-, hroots, k, d, hd⟩ := g.parts h
  have hkids := g.offspring_remove h
  simp only [Forest.offspring, hd, Option.getD_some, Forest.rootChildren]
    at hkids
  simp only [children, subtree, graft]
  rw [Forest.subtree?_insertUnder_parent i _ hd]
  simp only [Option.getD_some, Forest.rootChildren, Forest.roots_insertAt]
  rw [show ((t.forest.subtree? c).getD .nil).roots = [c] from hroots, hkids]
  rfl

theorem childAt (g : t.Graftable p i c) (h : t.Sound) :
    ((t.graft p i c).children p)[i]? = some c := by
  rw [g.children_parent h]
  have hlen : ((t.children p).take i).length = i := by
    rw [List.length_take, Nat.min_eq_left g.bound]
  rw [List.append_assoc, List.getElem?_append_right (Nat.le_of_eq hlen), hlen,
    Nat.sub_self]
  rfl

end Graftable

/-- A graft is taken back by cutting. -/
theorem cut_graft (h : t.Sound) (g : t.Graftable p i c) :
    ((t.graft p i c).cut c).forest = t.forest := by
  obtain ⟨hs, hroots, hp⟩ := g.parts h
  have hc : c ∉ (t.forest.remove c).ids := Forest.not_mem_remove h.nodup
  have htree : (t.graft p i c).subtree c = t.subtree c :=
    subtree_of_subtree? (Forest.subtree?_insertUnder_self i hroots hc hp)
  have hmem : c ∈ t.forest.roots :=
    h.mem_roots_iff.mpr ⟨g.child_exists, g.child_detached⟩
  calc ((t.graft p i c).cut c).forest
      = Forest.place c (t.subtree c) ((t.graft p i c).forest.remove c) := by
        simp only [cut, htree]
    _ = Forest.place c (t.subtree c) (t.forest.remove c) := by
        simp only [graft, Forest.remove_insertUnder p i hroots hc]
    _ = t.forest := Forest.place_remove h.nodup h.sorted hmem hs

/-! ## Cutting -/

theorem contains_of_childAt (h : t.Sound) (hi : (t.children p)[i]? = some c) :
    t.contains p = true ∧ t.contains c = true := by
  have hp := h.parent?_eq_some_iff.mpr (List.mem_of_getElem? hi)
  rw [h.contains_iff, h.contains_iff]
  exact (h.parent_mem hp).symm

/-- A parent is not below its child. -/
theorem not_mem_descendants_of_childAt (h : t.Sound)
    (hi : (t.children p)[i]? = some c) :
    p ∉ t.descendants c := by
  have hp := h.parent?_eq_some_iff.mpr (List.mem_of_getElem? hi)
  rw [h.mem_descendants_iff_above (contains_of_childAt h hi).2]
  have hlt := length_ancestors_lt h.nodup hp
  rintro (rfl | hm)
  · exact Nat.lt_irrefl _ hlt
  · exact Nat.lt_asymm hlt (length_ancestors_lt_of_mem h.nodup hm)

/-- A cut neither makes nor loses a node: what is cut off stays, detached.
-/
theorem labels_cut (h : t.Sound) (hc : t.contains c = true) :
    (t.cut c).forest.labels.Perm t.forest.labels := by
  obtain ⟨s, hs⟩ := Forest.exists_subtree (contains_iff_mem.mp hc)
  simp only [cut, subtree_of_subtree? hs]
  exact (Forest.labels_place c s _).trans (Forest.labels_remove h.nodup hs).symm

/-- A cut keeps a tree sound. -/
theorem sound_cut (h : t.Sound) (hi : (t.children p)[i]? = some c) :
    (t.cut c).Sound := by
  have hc := (contains_of_childAt h hi).2
  -- What is cut off becomes an outermost tree, so the count of nodes is the
  -- same on both sides.
  obtain ⟨s, hs⟩ := Forest.exists_subtree (contains_iff_mem.mp hc)
  have hparent := h.parent?_eq_some_iff.mpr (List.mem_of_getElem? hi)
  have hroot : root ≠ c := by
    rintro rfl
    rw [h.linked.root_parentless] at hparent
    cases hparent
  have hsorted : (t.forest.remove c).roots.Pairwise (· < ·) := by
    rw [Forest.roots_remove]
    exact h.sorted.sublist List.erase_sublist
  refine h.of_labels (labels_cut h hc) rfl ?_ ?_
  · simp only [cut, subtree_of_subtree? hs]
    exact Forest.sorted_roots_place (Forest.roots_subtree? hs) hsorted
      fun hm => Forest.not_mem_remove h.nodup (Forest.mem_ids_of_mem_roots hm)
  · simp only [cut, Forest.mem_roots_place, Forest.roots_remove]
    exact Or.inr ((List.mem_erase_of_ne hroot).mpr h.root_mem)

/-- What is taken out is missing where it stood, and nowhere else. -/
theorem roots_offspring_remove {s : Forest} (h : t.Sound)
    (hs : t.forest.subtree? c = some s) (hn : n ∉ s.ids) :
    ((t.forest.remove c).offspring n).roots = (t.children n).erase c := by
  have hne : n ≠ c := fun heq =>
    hn (heq ▸ Forest.mem_ids_of_roots_eq (Forest.roots_subtree? hs))
  rw [Forest.offspring, Forest.subtree?_remove h.nodup hs hn, children,
    subtree]
  cases hfound : t.forest.subtree? n with
  | none => rfl
  | some d =>
    rcases Forest.eq_of_roots_eq_singleton (Forest.roots_subtree? hfound)
      with ⟨k, x, rfl⟩ | ⟨k, d, rfl⟩
    · simp [Forest.remove, hne, Forest.rootChildren, Forest.roots]
    · simp [Forest.remove, hne, Forest.rootChildren, Forest.roots_remove]

/-- A cut takes the node from its parent and leaves all other children
outside its tree where they are. -/
theorem children_cut_of_not_mem (h : t.Sound)
    (hi : (t.children p)[i]? = some c) (hn : n ∉ t.descendants c) :
    (t.cut c).children n = (t.children n).erase c := by
  obtain ⟨s, hs⟩ := Forest.exists_subtree
    (contains_iff_mem.mp (contains_of_childAt h hi).2)
  rw [descendants, subtree_of_subtree? hs] at hn
  rw [children_eq_roots, Forest.offspring, cut, subtree_of_subtree? hs,
    Forest.subtree?_place n c s _ hn, ← Forest.offspring,
    roots_offspring_remove h hs hn]

theorem children_cut_parent (h : t.Sound)
    (hi : (t.children p)[i]? = some c) :
    (t.cut c).children p = (t.children p).erase c :=
  children_cut_of_not_mem h hi (not_mem_descendants_of_childAt h hi)

/-- After a cut the parent still stands where it was. -/
theorem subtree?_cut_parent (h : t.Sound)
    (hi : (t.children p)[i]? = some c) :
    ∃ (k : Kind) (d : Forest),
      (t.cut c).forest.subtree? p = some (.node p k d .nil) := by
  obtain ⟨hpm, hcm⟩ := contains_of_childAt h hi
  obtain ⟨s, hs⟩ := Forest.exists_subtree (contains_iff_mem.mp hcm)
  have hout : p ∉ s.ids :=
    subtree_of_subtree? hs ▸ not_mem_descendants_of_childAt h hi
  have hcp : p ≠ c := fun h =>
    hout (h ▸ Forest.mem_ids_of_roots_eq (Forest.roots_subtree? hs))
  have hleaf : t.isLeaf p = false := by
    cases hl : t.isLeaf p with
    | false => rfl
    | true => simp [h.linked.token_childless p hl] at hi
  obtain ⟨k, d, hd⟩ := isComposite_of_not_isLeaf hpm hleaf
  refine ⟨k, d.remove c, ?_⟩
  simp only [cut, subtree_of_subtree? hs]
  rw [Forest.subtree?_place p c s _ hout,
    Forest.subtree?_remove h.nodup hs hout, hd]
  simp [Forest.remove, hcp]

/-- What was cut can be put back. -/
theorem graftable_cut (h : t.Sound) (hi : (t.children p)[i]? = some c) :
    (t.cut c).Graftable p i c := by
  have hsound := sound_cut h hi
  obtain ⟨hpm, hcm⟩ := contains_of_childAt h hi
  obtain ⟨s, hs⟩ := Forest.exists_subtree (contains_iff_mem.mp hcm)
  have hroots := Forest.roots_subtree? hs
  have htop : c ∈ (t.cut c).forest.roots := by
    simp only [cut, subtree_of_subtree? hs, Forest.mem_roots_place, hroots]
    exact Or.inl List.mem_cons_self
  obtain ⟨hce, hcd⟩ := hsound.mem_roots_iff.mp htop
  have htree : (t.cut c).subtree c = t.subtree c := by
    apply subtree_of_subtree?
    simp only [cut, subtree_of_subtree? hs]
    exact Forest.subtree?_place_self hroots (Forest.not_mem_remove h.nodup)
  obtain ⟨k, d, hp⟩ := subtree?_cut_parent h hi
  have hlt : i < (t.children p).length := (List.getElem?_eq_some_iff.mp hi).1
  refine ⟨?_, ?_, hce, hcd, ?_, ?_, ?_⟩
  · rw [contains_iff_mem]
    exact Forest.mem_of_subtree? hp
  · simp [isLeaf, tokenText?, subtree, hp, Forest.rootText?]
  · rintro rfl
    have hparent := h.parent?_eq_some_iff.mpr (List.mem_of_getElem? hi)
    rw [h.linked.root_parentless] at hparent
    cases hparent
  · rw [descendants, htree]
    exact not_mem_descendants_of_childAt h hi
  · rw [children_cut_parent h hi,
      List.length_erase_of_mem (List.mem_of_getElem? hi)]
    omega

/-- A cut is taken back by grafting. -/
theorem graft_cut (h : t.Sound) (hi : (t.children p)[i]? = some c) :
    ((t.cut c).graft p i c).forest = t.forest := by
  obtain ⟨s, hs⟩ := Forest.exists_subtree
    (contains_iff_mem.mp (contains_of_childAt h hi).2)
  have hroots := Forest.roots_subtree? hs
  have hc : c ∉ (t.forest.remove c).ids := Forest.not_mem_remove h.nodup
  have hforest : (t.cut c).forest = Forest.place c s (t.forest.remove c) := by
    simp only [cut, subtree_of_subtree? hs]
  have htree : (t.cut c).subtree c = s :=
    subtree_of_subtree? (hforest ▸ Forest.subtree?_place_self hroots hc)
  calc ((t.cut c).graft p i c).forest
      = Forest.insertUnder p i s ((t.cut c).forest.remove c) := by
        simp only [graft, htree]
    _ = Forest.insertUnder p i s (t.forest.remove c) := by
        rw [hforest, Forest.remove_place hroots hc]
    _ = t.forest := Forest.insertUnder_remove h.nodup hs hi

/-! ## New texts -/

theorem sound_retext (h : t.Sound) (n : NodeId) (x : String) :
    (t.retext n x).Sound where
  nodup := by simpa [retext] using h.nodup
  mem_ids m := by simpa [retext] using h.mem_ids m
  sorted := by simpa [retext] using h.sorted
  root_mem := by simpa [retext] using h.root_mem

theorem isLeaf_retext (x : String) (hn : t.isLeaf n = true) :
    (t.retext n x).isLeaf n = true := by
  obtain ⟨y, hy⟩ := Option.isSome_iff_exists.mp hn
  obtain ⟨k, hk⟩ := subtree?_of_tokenText? hy
  simp [isLeaf, tokenText?, subtree, retext, Forest.subtree?_setText_self x hk,
    Forest.rootText?]

/-- A new text is taken back by the text there was before. -/
theorem retext_retext (h : t.Sound) {x : String} (hx : t.tokenText? n = some x)
    (y : String) :
    ((t.retext n y).retext n x).forest = t.forest := by
  obtain ⟨k, hk⟩ := subtree?_of_tokenText? hx
  simp only [retext, Forest.setText_setText]
  exact Forest.setText_self h.nodup hk

end TreeLint.Tree
