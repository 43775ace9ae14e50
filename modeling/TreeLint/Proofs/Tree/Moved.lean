import TreeLint.Proofs.Lint.Tour
import TreeLint.Proofs.Tree.Failure
import TreeLint.Proofs.Tree.Steady

/-!
# Moves

A node that is moved is detached and attached again, and everything outside
its tree stays in its place (`Reattached`). Two kinds of moves are of
interest: a token goes anywhere, and then it is the only node that is free
(`steady_moveAfter`); and a node goes past white space and comments among
its siblings, and then no node is free at all (`steady_moveBefore`).

The rule for chains moves operators in this way (specification, §13).
-/

namespace TreeLint

namespace Tree

variable {t u : Tree} {m n p q a : NodeId} {i j : Nat} {free : NodeId → Prop}

/-! ## Detached and attached again -/

/-- The tree of a node of the document was put at an index among the
children of a node. -/
structure Reattached (n p : NodeId) (j : Nat) (t u : Tree) : Prop where
  sound : u.Sound
  count : u.count = t.count
  ids_subset : t.document.ids ⊆ u.document.ids
  subtree : u.subtree n = t.subtree n
  document : u.document = Forest.insertUnder p j (t.subtree n)
    (t.document.remove n)
  keeps : Forest.KeepsBut (t.descendants n) t.document u.document
  parent : u.parent? n = some p
  children : u.children p = ((t.detach n).tree.children p).take j ++ n ::
    ((t.detach n).tree.children p).drop j

/-- Detaching and attaching again is one change of place, with every other
node where it was. -/
theorem reattached_insertChild (h : t.Sound) (hn : n ∈ t.document.ids)
    (hok : (t.detach n).failure = none)
    (hp : p ∈ (t.detach n).tree.document.ids)
    (hinsert : ((t.detach n).tree.insertChild p j n).failure = none) :
    Reattached n p j t ((t.detach n).tree.insertChild p j n).tree := by
  -- The parts of the two steps: where the tree was taken out, and that it
  -- could be put in.
  obtain ⟨hv, -, -, -, hsub⟩ := detached_of_success h hok
  obtain ⟨-, -, -, -, hcut⟩ := detach_of_success h hok
  have hu : ((t.detach n).tree.insertChild p j n).tree.Sound :=
    hv.changes (changes_insertChild hv p j n)
  obtain ⟨g, htree⟩ := insertChild_eq_graft hv hinsert
  obtain ⟨-, hdoc⟩ := insertChild_of_success hv hinsert
  rw [hsub, hcut] at hdoc
  have hs := h.subtree?_document hn
  have hself := (subtree_insertChild hv hinsert).trans hsub
  have hkids : ((t.detach n).tree.insertChild p j n).tree.children p =
      ((t.detach n).tree.children p).take j ++ n ::
          ((t.detach n).tree.children p).drop j := by
    have hgraft := g.children_parent hv
    rw [List.append_assoc] at hgraft
    rw [htree, Tree.children, Tree.subtree, record_forest]
    exact hgraft
  refine ⟨hu, ?_, document_subset_reattached h hn hok hp hinsert, hself, hdoc,
    ?_, ?_, hkids⟩
  · rw [Within.Changes.count (changes_insertChild hv p j n),
      Within.Changes.count (changes_detach t n)]
  · refine (Forest.keepsBut_remove h.nodup_document hs).trans ?_
    have hnodup := hu.nodup_document
    have hfound : n ∈ ((t.detach n).tree.insertChild p j n).tree.document.ids →
        ((t.detach n).tree.insertChild p j n).tree.document.subtree? n =
            some (t.subtree n) := by
      intro hm
      rw [hu.subtree?_document hm, hself]
    rw [hdoc] at hnodup hfound ⊢
    exact Forest.keepsBut_insertUnder p j (Forest.roots_subtree? hs)
      (Forest.not_mem_remove h.nodup_document)
      hnodup hfound
  · rw [hu.parent?_eq_some_iff, hkids]
    simp

/-- A node of the document that is moved next to another one is attached
again beside it. -/
theorem reattached_moveBeside {k : Nat} (hk : k ≤ 1) (h : t.Sound)
    (hn : n ∈ t.document.ids) (ha : a ∈ t.document.ids)
    (hok : (t.moveBeside k n a).failure = none) :
    ∃ p i, ((t.detach n).tree.children p)[i]? = some a ∧
      a ∉ t.descendants n ∧
      Reattached n p (i + k) t (t.moveBeside k n a).tree := by
  have hout :=
    (((putsBeside_insertBeside hk a n).move_succeeds_iff h hn ha).mp hok).2.2
  obtain ⟨hdetach, hnext⟩ := andThen_of_success hok
  have hv := (detached_of_success h hdetach).1
  have ha' := hv.mem_document_iff.mpr
    (isAttached_detach h (h.mem_document_iff.mp ha) hdetach hout)
  rw [moveBeside, hnext] at hok ⊢
  unfold insertBeside at hok ⊢
  split at hok
  · next p i hp hi =>
    exact ⟨p, i, childAt_of_childIndex? hp hi, hout,
      reattached_insertChild h hn hdetach (hv.parent_mem_document ha' hp) hok⟩
  · cases hok

namespace Reattached

theorem mem_iff (r : Reattached n p j t u) (h : t.Sound)
    (hn : n ∈ t.document.ids) :
    m ∈ u.document.ids ↔ m ∈ t.document.ids := by
  refine ⟨fun hm => ?_, fun hm => r.ids_subset hm⟩
  by_cases hmS : m ∈ t.descendants n
  · exact Forest.ids_subtree?_subset (h.subtree?_document hn) hmS
  · exact (r.keeps.mem_iff hmS).mp hm

/-- The kind and text of a node do not change. -/
theorem label (r : Reattached n p j t u) (h : t.Sound) (hn : n ∈ t.document.ids)
    (hm : m ∈ t.document.ids) :
    u.kind? m = t.kind? m ∧ u.tokenText? m = t.tokenText? m := by
  by_cases hmS : m ∈ t.descendants n
  · have hold := Forest.subtree?_subtree? h.nodup_document
      (h.subtree?_document hn) hmS
    have hmS' : m ∈ (u.subtree n).ids := by rwa [r.subtree]
    have hnew := Forest.subtree?_subtree? r.sound.nodup_document
      (r.sound.subtree?_document (r.ids_subset hn)) hmS'
    rw [r.subtree, hold, h.subtree?_document hm,
      r.sound.subtree?_document (r.ids_subset hm)] at hnew
    rw [kind?, kind?, tokenText?, tokenText?, Option.some.inj hnew]
    exact ⟨rfl, rfl⟩
  · obtain ⟨hkind, htext, -⟩ := label_of_keepsBut h r.sound r.keeps hm hmS
    exact ⟨hkind, htext⟩

/-- Below a node that is moved nothing gets another parent. -/
theorem parent_below (r : Reattached n p j t u) (h : t.Sound)
    (hn : n ∈ t.document.ids) (hm : m ∈ t.descendants n) (hne : m ≠ n) :
    u.parent? m = t.parent? m := by
  have hs := h.subtree?_document hn
  have hmem : ∀ {x}, x ∈ t.descendants n ↔ x = n ∨ n ∈ t.ancestors x :=
    h.mem_descendants_iff_above (h.contains_document hn)
  have habove := (hmem.mp hm).resolve_left hne
  cases hq : t.parent? m with
  | none => simp [ancestors_of_parent?_eq_none hq] at habove
  | some q =>
    rw [ancestors_of_parent? h.nodup hq] at habove
    have hqS : q ∈ t.descendants n :=
      hmem.mpr ((List.mem_cons.mp habove).imp Eq.symm id)
    have hqdoc : q ∈ t.document.ids := Forest.ids_subtree?_subset hs hqS
    have hold := Forest.subtree?_subtree? h.nodup_document hs hqS
    have hqS' : q ∈ (u.subtree n).ids := by rwa [r.subtree]
    have hnew := Forest.subtree?_subtree? r.sound.nodup_document
      (r.sound.subtree?_document (r.ids_subset hn)) hqS'
    rw [r.subtree, hold, h.subtree?_document hqdoc,
      r.sound.subtree?_document (r.ids_subset hqdoc)] at hnew
    rw [r.sound.parent?_eq_some_iff, Tree.children, ← Option.some.inj hnew]
    exact h.parent?_eq_some_iff.mp hq

end Reattached

/-! ## A token goes anywhere -/

theorem descendants_of_leaf (hleaf : t.isLeaf n = true) :
    t.descendants n = [n] := by
  obtain ⟨y, hy⟩ := Option.isSome_iff_exists.mp hleaf
  obtain ⟨k, hk⟩ := subtree?_of_tokenText? hy
  rw [descendants, subtree_of_subtree? hk]
  rfl

/-- A token is put right behind another node. -/
theorem steady_moveAfter (h : t.Sound) (hn : n ∈ t.document.ids)
    (hleaf : t.isLeaf n = true) (ha : a ∈ t.document.ids)
    (hok : (t.moveAfter n a).failure = none) :
    t.Steady (· = n) (t.moveAfter n a).tree ∧
      ∃ p as bs, (t.moveAfter n a).tree.children p = as ++ a :: n :: bs := by
  rw [moveAfter_eq] at hok ⊢
  obtain ⟨p, i, hi, -, r⟩ := reattached_moveBeside (Nat.le_refl 1) h hn ha hok
  have hkeeps := r.keeps
  rw [descendants_of_leaf hleaf] at hkeeps
  constructor
  · refine .of_keepsBut h r.sound hkeeps (Nat.le_of_eq r.count.symm) ?_ ?_ ?_
    · intro m hmS _
      exact Or.inr ⟨List.mem_singleton.mp hmS,
        r.ids_subset ((List.mem_singleton.mp hmS) ▸ hn)⟩
    · intro m hmS _ hout
      exact absurd ((List.mem_singleton.mp hmS) ▸ hn) hout
    · intro m hmS hm _
      obtain ⟨hkind, htext⟩ := r.label h hn hm
      exact ⟨hkind, congrArg Option.isSome htext, fun hfree =>
        absurd (List.mem_singleton.mp hmS) hfree⟩
  · obtain ⟨hlt, hget⟩ := List.getElem?_eq_some_iff.mp hi
    refine ⟨p, ((t.detach n).tree.children p).take i,
      ((t.detach n).tree.children p).drop (i + 1), ?_⟩
    rw [r.children, List.take_succ_eq_append_getElem hlt, hget,
      List.append_assoc]
    rfl

/-! ## A node goes past white space and comments among its siblings -/

/-- A node that is put before a sibling stays under its parent and gets the
sibling's index. -/
theorem reattached_among_siblings (h : t.Sound) (hn : n ∈ t.document.ids)
    {far near back : List NodeId}
    (hkids : t.children p = far ++ (a :: near ++ n :: back))
    (hok : (t.moveBefore n a).failure = none) :
    Reattached n p far.length t (t.moveBefore n a).tree := by
  have hp : t.parent? n = some p := h.parent?_eq_some_iff.mpr (by simp [hkids])
  have hap : t.parent? a = some p := h.parent?_eq_some_iff.mpr (by simp [hkids])
  have ha : a ∈ t.document.ids :=
    (h.parent_mem_document_iff hap).mp (h.parent_mem_document hn hp)
  rw [moveBefore_eq] at hok ⊢
  obtain ⟨q, i, hi, haout, r⟩ :=
    reattached_moveBeside (Nat.zero_le 1) h hn ha hok
  obtain ⟨hdetach, -⟩ := andThen_of_success hok
  have hv := (detached_of_success h hdetach).1
  have hqp : q = p := by
    have hq := hv.parent?_eq_some_iff.mpr (List.mem_of_getElem? hi)
    rw [(parent?_detach h hdetach hap haout).1] at hq
    exact (Option.some.inj hq).symm
  subst hqp
  -- without the node, the sibling has the same index as before
  have hleft : (t.detach n).tree.children q = far ++ a :: (near ++ back) := by
    obtain ⟨q', j, hj, hforest, -⟩ := detach_of_success h hdetach
    obtain rfl : q = q' := by
      rw [h.parent?_eq_some_iff.mpr (List.mem_of_getElem? hj)] at hp
      exact (Option.some.inj hp).symm
    have hnodup : (far ++ a :: near ++ n :: back).Nodup := by
      rw [List.append_assoc, ← hkids]
      exact h.nodup_children q
    have hnear : n ∉ far ++ a :: near :=
      fun hm => List.disjoint_of_nodup_append hnodup hm List.mem_cons_self
    have hcut : (t.detach n).tree.children q = (t.children q).erase n := by
      rw [← children_cut_parent h hj, children, children, subtree,
        subtree, hforest]
    rw [hcut, hkids, ← List.append_assoc, List.erase_append_right _ hnear,
      List.erase_cons_head]
    simp
  have hindex : i = far.length := by
    have hnodup := hv.nodup_children q
    rw [hleft] at hi hnodup
    have hat : (far ++ a :: (near ++ back))[far.length]? = some a := by simp
    exact (List.getElem?_inj (List.getElem?_eq_some_iff.mp hi).1 hnodup).mp
      (hi.trans hat.symm)
  exact hindex ▸ r

/-- A node that goes past white space and comments in front of it changes
places with nothing that counts as code. -/
theorem steady_moveBefore (h : t.Sound) (hn : n ∈ t.document.ids)
    {far near back : List NodeId}
    (hkids : t.children p = far ++ (a :: near ++ n :: back))
    (htrivia : ∀ m ∈ a :: near, t.kindIs m Kind.isTrivia = true ∧
      t.isLeaf m = true)
    (hok : (t.moveBefore n a).failure = none) :
    t.Steady free (t.moveBefore n a).tree := by
  have r := reattached_among_siblings h hn hkids hok
  have hp : t.parent? n = some p := h.parent?_eq_some_iff.mpr (by simp [hkids])
  have hpdoc := h.parent_mem_document hn hp
  have hroots : (t.document.offspring p).roots =
      far ++ (a :: near ++ n :: back) := by
    rw [h.offspring_document hpdoc, hkids]
  have hleaf : ∀ m ∈ a :: near, ∃ k y, t.document.subtree? m =
      some (.token m k y .nil) := by
    intro m hm
    have hmp : m ∈ t.children p := by
      rw [hkids]
      exact List.mem_append_right _ (List.mem_append_left _ hm)
    obtain ⟨k, y, -, -, hsub⟩ :=
      document_subtree_of_token h (h.child_mem_document hpdoc hmp)
        (htrivia m hm).2
    exact ⟨k, y, hsub⟩
  -- the listing changes only where the node and what it passes stand
  have hids : ((t.moveBefore n a).tree.document.ids.filter fun m =>
      !(a :: near).contains m) =
      t.document.ids.filter fun m => !(a :: near).contains m := by
    obtain ⟨front, passed, rear, hpassed, hold, hnew⟩ :=
      Forest.labels_past_siblings h.nodup_document hroots
        (h.subtree?_document hn) hleaf
    rw [← r.document] at hnew
    have hgone : (passed.map Prod.fst).filter
        (fun m => !(a :: near).contains m) = [] := by
      rw [hpassed, List.filter_eq_nil_iff]
      intro m hm
      rw [List.contains_iff_mem.mpr hm]
      exact Bool.false_ne_true
    rw [← Forest.map_fst_labels, ← Forest.map_fst_labels, hold, hnew]
    simp only [List.map_append, List.filter_append, hgone, List.nil_append,
      List.append_nil]
  have hcode : ∀ m, t.kindIs m Kind.isTrivia = false →
      (!(a :: near).contains m) = true := by
    intro m hm
    rw [Bool.not_eq_true', ← Bool.not_eq_true, List.contains_iff_mem]
    intro hmem
    rw [(htrivia m hmem).1] at hm
    cases hm
  refine ⟨Nat.le_of_eq r.count.symm, fun m hm _ => r.ids_subset hm,
    ?_, ?_, ?_, ?_⟩
  · intro m hm hout
    exact absurd ((r.mem_iff h hn).mp hm) hout
  · intro m hm _
    obtain ⟨hkind, htext⟩ := r.label h hn hm
    exact ⟨hkind, congrArg Option.isSome htext⟩
  · intro m hm _ _
    by_cases hmS : m ∈ t.descendants n
    · by_cases hmn : m = n
      · rw [hmn, r.parent, hp]
      · exact r.parent_below h hn hmS hmn
    · exact (label_of_keepsBut h r.sound r.keeps hm hmS).2.2
  · intro x y hxy hx hy _ _
    exact hxy.of_filter_eq hids (hcode x hx) (hcode y hy)

end Tree

end TreeLint
