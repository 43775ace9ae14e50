import TreeLint.Proofs.Tree.SameFile
import TreeLint.Proofs.Tree.Splice

/-!
# When edits succeed

An edit of attached nodes is refused for few reasons. The root of the file
can neither be detached nor get a sibling, only tokens have a text, and a
node is not moved next to something below it. For the edits that corrections
are made of these are all the reasons there are: `detach_succeeds_iff` and
its companions.

Edits that put white space somewhere or move a node leave everything
attached that was attached (`document_subset_spaceBefore`,
`PutsBeside.document_subset_move`), so that what can be said of one edit can
be said of the next one, too.

Specification, §3 and §11.
-/

namespace TreeLint

namespace Forest

variable {p : NodeId} {i : Nat} {s f : Forest}

/-- Nothing is lost by putting something in. -/
theorem ids_subset_insertUnder (p : NodeId) (i : Nat) (s f : Forest) :
    f.ids ⊆ (insertUnder p i s f).ids := by
  induction f with
  | nil => exact List.nil_subset _
  | token j k x r ih => exact List.cons_subset_cons j ih
  | node j k c r ihc ihr =>
    simp only [insertUnder]
    split
    · have hlabels : (insertAt s i c).labels.Perm (s.append c).labels := by
        rw [labels_append]
        exact labels_insertAt s i c
      have hsub : c.ids ⊆ (insertAt s i c).ids := by
        intro m hm
        rw [(ids_perm_of_labels_perm hlabels).mem_iff, ids_append]
        exact List.mem_append_right _ hm
      exact List.cons_subset_cons j (List.append_subset.mpr
        ⟨List.subset_append_of_subset_left _ hsub,
          List.subset_append_right _ _⟩)
    · exact List.cons_subset_cons j (List.append_subset.mpr
        ⟨List.subset_append_of_subset_left _ ihc,
          List.subset_append_of_subset_right _ ihr⟩)

end Forest

namespace Tree

variable {t u : Tree} {n m p a c : NodeId} {i k : Nat} {x : String}

/-! ## The root -/

/-- Among attached nodes only the root has no parent. -/
theorem Sound.hasParent_iff (h : t.Sound) (hn : n ∈ t.document.ids) :
    (t.parent? n).isSome = true ↔ n ≠ root := by
  constructor
  · rintro hp rfl
    rw [h.linked.root_parentless] at hp
    cases hp
  · intro hroot
    rw [h.mem_document_iff, isAttached, Bool.or_eq_true, beq_iff_eq,
      List.contains_iff_mem] at hn
    have hmem := hn.resolve_left hroot
    rw [parent?, List.isSome_head?]
    exact List.ne_nil_of_mem hmem

/-- What stands above an attached node is attached, so a detached node is
not. -/
theorem Sound.not_mem_descendants (h : t.Sound) (hc : t.contains c = true)
    (hout : c ∉ t.document.ids) (hm : m ∈ t.document.ids) :
    m ∉ t.descendants c := by
  rw [h.mem_descendants_iff_above hc]
  rintro (rfl | habove)
  · exact hout hm
  · exact hout (h.ancestor_mem_document hm habove)

/-- A detached node is not in the document. -/
theorem Sound.not_mem_document (h : t.Sound) (hp : t.parent? c = none)
    (hroot : c ≠ root) : c ∉ t.document.ids := by
  intro hc
  have hsome := (h.hasParent_iff hc).mpr hroot
  rw [hp] at hsome
  cases hsome

/-! ## Detaching and attaching -/

theorem detach_succeeds_iff_parent (h : t.Sound) :
    (t.detach n).failure = none ↔ (t.parent? n).isSome = true := by
  cases hp : t.parent? n with
  | none => simp [detach, hp]
  | some p =>
    obtain ⟨i, hi, -⟩ := h.childIndex?_of_parent? hp
    simp [detach, hp, hi]

/-- **Attaching succeeds exactly if a graft is possible:** both nodes exist,
the parent can have children, the child is detached and not above the
parent, and the index is not too large. -/
theorem insertChild_succeeds_iff (h : t.Sound) :
    (t.insertChild p i c).failure = none ↔ t.Graftable p i c := by
  constructor
  · intro hok
    exact (insertChild_eq_graft h hok).1
  · intro g
    have hout := g.outside
    rw [h.mem_descendants_iff_above g.child_exists] at hout
    have hbound : ¬(t.children p).length < i := Nat.not_lt.mpr g.bound
    simp only [insertChild, g.parent_exists, g.child_exists, g.parent_composite,
      g.child_detached, Bool.not_true,
      Bool.false_eq_true, if_false, Option.isSome_none, Bool.false_or,
        beq_iff_eq, g.child_ne_root, Bool.or_eq_true,
      List.contains_iff_mem, hout, hbound]

/-- A detached tree can be put next to any node that has a parent, if that
is not below it. -/
theorem graftable_beside (h : t.Sound) (hc : t.contains c = true)
    (hd : t.parent? c = none) (hroot : c ≠ root)
    (hi : (t.children p)[i]? = some a) (hout : p ∉ t.descendants c)
    (hk : k ≤ 1) : t.Graftable p (i + k) c where
  parent_exists := (contains_of_childAt h hi).1
  parent_composite := by
    cases hl : t.isLeaf p with
    | false => rfl
    | true => simp [h.linked.token_childless p hl] at hi
  child_exists := hc
  child_detached := hd
  child_ne_root := hroot
  outside := hout
  bound := by
    have hlt := (List.getElem?_eq_some_iff.mp hi).1
    omega

/-- An edit that puts `c` next to `a`, on one side or the other. -/
def PutsBeside (a c : NodeId) (attach : Tree → Edited) : Prop :=
  ∀ t : Tree, t.Sound → (t.parent? a = none ∧ (attach t).failure ≠ none) ∨
    ∃ p i k, t.parent? a = some p ∧ (t.children p)[i]? = some a ∧ k ≤ 1 ∧
      attach t = t.insertChild p (i + k) c

theorem putsBeside_insertBeside (hk : k ≤ 1) (a c : NodeId) :
    PutsBeside a c fun t => t.insertBeside k a c := by
  intro t h
  cases hp : t.parent? a with
  | none => exact Or.inl ⟨rfl, by simp [insertBeside, hp]⟩
  | some p =>
    obtain ⟨i, hi, hchild⟩ := h.childIndex?_of_parent? hp
    exact Or.inr ⟨p, i, k, rfl, hchild, hk, by simp [insertBeside, hp, hi]⟩

theorem putsBeside_insertBefore (a c : NodeId) :
    PutsBeside a c fun t => t.insertBefore a c :=
  putsBeside_insertBeside (Nat.zero_le 1) a c

theorem putsBeside_insertAfter (a c : NodeId) :
    PutsBeside a c fun t => t.insertAfter a c :=
  putsBeside_insertBeside (Nat.le_refl 1) a c

theorem PutsBeside.succeeds_iff {attach : Tree → Edited}
    (hputs : PutsBeside a c attach) (h : t.Sound) (hc : t.contains c = true)
    (hd : t.parent? c = none) (hroot : c ≠ root) :
    (attach t).failure = none ↔ ∃ p, t.parent? a = some p ∧
      p ∉ t.descendants c := by
  rcases hputs t h with ⟨hp, hfail⟩ | ⟨p, i, k, hp, hchild, hk, hattach⟩
  · simp [hp, hfail]
  · simp only [hattach, insertChild_succeeds_iff h, hp, Option.some.injEq,
      exists_eq_left']
    exact ⟨Graftable.outside, fun hout =>
      graftable_beside h hc hd hroot hchild hout hk⟩

/-- An attached node can be detached, unless it is the root. -/
theorem detach_succeeds_iff (h : t.Sound) (hn : n ∈ t.document.ids) :
    (t.detach n).failure = none ↔ n ≠ root :=
  (detach_succeeds_iff_parent h).trans (h.hasParent_iff hn)

/-! ## White space -/

theorem replaceText_succeeds_iff (t : Tree) (n : NodeId) (x : String) :
    (t.replaceText n x).failure = none ↔ t.isLeaf n = true := by
  unfold replaceText isLeaf
  split <;> simp [*]

/-- New white space can be put next to an attached node, unless that is the
root. -/
theorem beside_newToken_iff (h : t.Sound) (hn : n ∈ t.document.ids) :
    (∃ p, (t.newToken .whitespace x).parent? n = some p ∧
      p ∉ (t.newToken .whitespace x).descendants t.count) ↔ n ≠ root := by
  have hin : t.contains n = true := h.contains_document hn
  have hparent : (t.newToken .whitespace x).parent? n = t.parent? n := by
    rw [parent?, parent?]
    exact congrArg List.head?
      (ancestors_grow (x := .token t.count .whitespace x .nil) hin)
  rw [hparent, ← h.hasParent_iff hn, Option.isSome_iff_exists, descendants,
    subtree_newToken h]
  refine exists_congr fun p => and_iff_left_of_imp fun hp => ?_
  rw [Forest.ids, Forest.ids, List.mem_singleton]
  exact Nat.ne_of_lt (h.parent_mem hp).2

/-- What is known of a white space token that was just created. -/
theorem newToken_detached (h : t.Sound) (x : String) :
    (t.newToken .whitespace x).contains t.count = true ∧
      (t.newToken .whitespace x).parent? t.count = none ∧
      t.count ≠ root := by
  have hroots : t.count ∈ (t.newToken .whitespace x).forest.roots := by
    simp [newToken, Forest.roots_append, Forest.roots]
  have hfirst : root < t.count :=
    (h.mem_ids root).mp (Forest.mem_ids_of_mem_roots h.root_mem)
  obtain ⟨hin, hnone⟩ := (sound_newToken h x).mem_roots_iff.mp hroots
  exact ⟨hin, hnone, Nat.ne_of_gt hfirst⟩

/-- Filling a gap next to an attached node succeeds if attaching new white
space there does: white space that is there already is a token of the
document, and then the node is not the root. -/
theorem fillGap_succeeds_iff (hx : x.isEmpty = false)
    {neighbour : Option NodeId} {attach : Tree → NodeId → Edited}
    (hneighbour : ∀ leaf, neighbour = some leaf →
      t.isLeaf leaf = true ∧ n ≠ root)
    (hattach : (attach (t.newToken .whitespace x) t.count).failure =
      none ↔ n ≠ root) :
    (t.fillGap neighbour x attach).failure = none ↔ n ≠ root := by
  unfold fillGap
  split
  · next space hspace =>
    obtain ⟨hleaf, hroot⟩ :=
      hneighbour space (Option.filter_eq_some_iff.mp hspace).1
    rw [hx, if_neg Bool.false_ne_true, replaceText_succeeds_iff]
    exact iff_of_true hleaf hroot
  · rw [hx, if_neg Bool.false_ne_true]
    exact hattach

/-- A token before or after an attached node: it is a token of the document,
which then is not all below the node. -/
theorem beside_leaf (h : t.Sound) (hn : n ∈ t.document.ids) {tok : Token}
    (htok : tok ∈ t.tokensBefore n ∨ tok ∈ t.tokensAfter n) :
    t.isLeaf tok.id = true ∧ n ≠ root := by
  constructor
  · rw [isLeaf, (h.of_mem_tokens (h.mem_tokens_of_beside hn htok)).2.2]
    rfl
  · rintro rfl
    obtain ⟨pre, post, ha⟩ := h.around hn
    obtain ⟨hbefore, hafter⟩ := h.tokens_of_around ha
    have hall := ha.tokens_eq
    rw [show t.subtree root = t.document from rfl] at hall
    have hlen := congrArg List.length hall
    simp only [List.length_append] at hlen
    have hpre : pre = [] := List.length_eq_zero_iff.mp (by omega)
    have hpost : post = [] := List.length_eq_zero_iff.mp (by omega)
    rw [hbefore, hafter, hpre, hpost] at htok
    rcases htok with htok | htok <;> cases htok

/-- White space can be put into a gap next to an attached node, unless the
node is the root. -/
theorem space_succeeds_iff {neighbour : Option Token}
    {attach : Tree → NodeId → Edited} (h : t.Sound)
    (hn : n ∈ t.document.ids) (hx : x.isEmpty = false)
    (hputs : PutsBeside n t.count fun u => attach u t.count)
    (hbeside : ∀ tok ∈ neighbour,
      tok ∈ t.tokensBefore n ∨ tok ∈ t.tokensAfter n) :
    (t.fillGap (neighbour.map Token.id) x attach).failure = none ↔
      n ≠ root := by
  obtain ⟨hin, hnone, hroot⟩ := newToken_detached h x
  refine fillGap_succeeds_iff hx (fun leaf hleaf => ?_) ?_
  · obtain ⟨tok, htok, rfl⟩ := Option.map_eq_some_iff.mp hleaf
    exact beside_leaf h hn (hbeside tok htok)
  · exact (hputs.succeeds_iff (sound_newToken h x) hin hnone hroot).trans
      (beside_newToken_iff h hn)

theorem spaceBefore_succeeds_iff (h : t.Sound) (hn : n ∈ t.document.ids)
    (hx : x.isEmpty = false) :
    (t.spaceBefore n x).failure = none ↔ n ≠ root :=
  space_succeeds_iff h hn hx (putsBeside_insertBefore n t.count)
    fun _ htok => Or.inl (List.mem_of_head? htok)

theorem spaceAfter_succeeds_iff (h : t.Sound) (hn : n ∈ t.document.ids)
    (hx : x.isEmpty = false) :
    (t.spaceAfter n x).failure = none ↔ n ≠ root :=
  space_succeeds_iff h hn hx (putsBeside_insertAfter n t.count)
    fun _ htok => Or.inr (List.mem_of_head? htok)

/-- White space that is put somewhere leaves everything attached. -/
theorem Spaced.ids_subset {f g : Forest} (h : Spaced x f g)
    (hx : x.isEmpty = false) : f.ids ⊆ g.ids := by
  cases h with
  | same => exact List.Subset.refl _
  | removed _ _ hempty => simp [hempty] at hx
  | retexted => rw [Forest.ids_setText]; exact List.Subset.refl _
  | added => exact Forest.ids_subset_insertUnder _ _ _ _

theorem document_subset_spaceBefore (h : t.Sound) (n : NodeId)
    (hx : x.isEmpty = false) :
    t.document.ids ⊆ (t.spaceBefore n x).tree.document.ids :=
  (spaced_spaceBefore h n x).ids_subset hx

theorem document_subset_spaceAfter (h : t.Sound) (n : NodeId)
    (hx : x.isEmpty = false) :
    t.document.ids ⊆ (t.spaceAfter n x).tree.document.ids :=
  (spaced_spaceAfter h n x).ids_subset hx

/-! ## Moving -/

/-- A node that was just detached. -/
theorem detached_of_success (h : t.Sound) (hok : (t.detach n).failure = none) :
    (t.detach n).tree.Sound ∧ (t.detach n).tree.contains n = true ∧
      (t.detach n).tree.parent? n = none ∧ n ≠ root ∧
      (t.detach n).tree.subtree n = t.subtree n := by
  have hu : (t.detach n).tree.Sound := h.changes (changes_detach t n)
  obtain ⟨p, i, hi, hforest, -⟩ := detach_of_success h hok
  have g := (graftable_cut h hi).congr hforest
  refine ⟨hu, g.child_exists, g.child_detached, g.child_ne_root, ?_⟩
  rw [← subtree_cut h hi, subtree, subtree, hforest]

/-- Next to what an attached node can be put once it is detached. -/
theorem beside_detached_iff (h : t.Sound) (ha : a ∈ t.document.ids)
    (hok : (t.detach n).failure = none) :
    (∃ p, (t.detach n).tree.parent? a = some p ∧
      p ∉ (t.detach n).tree.descendants n) ↔
      a ≠ root ∧ a ∉ t.descendants n := by
  obtain ⟨hu, hin, hnone, hroot, hsub⟩ := detached_of_success h hok
  constructor
  · rintro ⟨p, hp, hout⟩
    obtain ⟨i, -, hi⟩ := hu.childIndex?_of_parent? hp
    have g := graftable_beside hu hin hnone hroot hi hout (Nat.zero_le 1)
    refine ⟨?_, ?_⟩
    · rintro rfl
      rw [hu.linked.root_parentless] at hp
      cases hp
    · rw [descendants, ← hsub]
      exact g.not_mem_subtree hu hp
  · rintro ⟨hne, hout⟩
    -- what is not below the node stays attached, and so does its parent
    have ha' := hu.mem_document_iff.mpr
      (isAttached_detach h (h.mem_document_iff.mp ha) hok hout)
    obtain ⟨p, hp⟩ := Option.isSome_iff_exists.mp
      ((hu.hasParent_iff ha').mpr hne)
    exact ⟨p, hp, hu.not_mem_descendants hin (hu.not_mem_document hnone hroot)
      (hu.parent_mem_document ha' hp)⟩

/-- Detaching and then attaching succeeds if both do. -/
theorem andThen_succeeds_iff {e : Edited} {next : Tree → Edited} :
    (e.andThen next).failure = none ↔ e.failure = none ∧
      (next e.tree).failure = none := by
  unfold Edited.andThen
  split
  · next hfail => simp [hfail]
  · next hfail => simp [hfail]

/-- An attached node can be moved next to another one, unless one of them is
the root, or the other one is below it. -/
theorem PutsBeside.move_succeeds_iff {attach : Tree → Edited}
    (hputs : PutsBeside a n attach) (h : t.Sound) (hn : n ∈ t.document.ids)
    (ha : a ∈ t.document.ids) :
    ((t.detach n).andThen attach).failure = none ↔ n ≠ root ∧ a ≠ root ∧
      a ∉ t.descendants n := by
  rw [andThen_succeeds_iff, ← detach_succeeds_iff h hn]
  refine and_congr_right fun hok => ?_
  obtain ⟨hu, hin, hnone, hroot, -⟩ := detached_of_success h hok
  exact (hputs.succeeds_iff hu hin hnone hroot).trans
    (beside_detached_iff h ha hok)

/-- A node of the document that is detached and attached again under a node
of the document. -/
theorem document_subset_reattached (h : t.Sound) (hn : n ∈ t.document.ids)
    (hok : (t.detach n).failure = none)
    (hp : p ∈ (t.detach n).tree.document.ids)
    (hinsert : ((t.detach n).tree.insertChild p i n).failure = none) :
    t.document.ids ⊆
      ((t.detach n).tree.insertChild p i n).tree.document.ids := by
  obtain ⟨hu, -, -, -, hsub⟩ := detached_of_success h hok
  obtain ⟨-, -, -, -, hdoc⟩ := detach_of_success h hok
  obtain ⟨g, hdoc'⟩ := insertChild_of_success hu hinsert
  obtain ⟨k, d, hd⟩ := isComposite_of_not_isLeaf g.parent_exists
    g.parent_composite
  have hcomposite : (t.detach n).tree.document.IsComposite p := by
    refine ⟨k, d, ?_⟩
    rw [hu.subtree?_document hp, subtree_of_subtree? hd]
  have hput := Forest.labels_insertUnder i
    (t.subtree n) hu.nodup_document hcomposite
  have htaken := Forest.labels_remove h.nodup_document (h.subtree?_document hn)
  rw [← hdoc] at htaken
  rw [hdoc', hsub]
  exact (Forest.ids_perm_of_labels_perm (htaken.trans hput.symm)).subset

/-- A move leaves everything attached. -/
theorem PutsBeside.document_subset_move {attach : Tree → Edited}
    (hputs : PutsBeside a n attach) (h : t.Sound) (hn : n ∈ t.document.ids)
    (ha : a ∈ t.document.ids)
    (hok : ((t.detach n).andThen attach).failure = none) :
    t.document.ids ⊆ ((t.detach n).andThen attach).tree.document.ids := by
  have hout := ((hputs.move_succeeds_iff h hn ha).mp hok).2.2
  obtain ⟨hdetach, hnext⟩ := andThen_of_success hok
  have hu := (detached_of_success h hdetach).1
  have ha' := hu.mem_document_iff.mpr
    (isAttached_detach h (h.mem_document_iff.mp ha) hdetach hout)
  rw [hnext] at hok ⊢
  rcases hputs _ hu with ⟨-, hfail⟩ | ⟨p, i, k, hp, -, -, hattach⟩
  · exact absurd hok hfail
  · rw [hattach] at hok ⊢
    exact document_subset_reattached h hn hdetach
      (hu.parent_mem_document ha' hp) hok

end Tree

end TreeLint
