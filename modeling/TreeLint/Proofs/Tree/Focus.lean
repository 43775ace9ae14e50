import TreeLint.Proofs.Forest.Context
import TreeLint.Proofs.Tree.SameFile
import TreeLint.Proofs.Tree.Steady
import TreeLint.Proofs.Tree.Success

/-!
# A place in the document

When the document is known around a place and in it, the questions a rule
asks there can be answered (`Shows.nextLeaf?_eq`, `Shows.childOfKind?_eq`,
`Shows.nextCodeSibling?_eq`), and the edits of white space succeed and have
the expected result (`Shows.detach`, `Shows.replaceText`,
`Shows.spaceAfter`).

Specification, §3.
-/

namespace TreeLint

open Forest (Context Layer)
open Forest.Context

namespace Forest

variable {f : Forest} {n : NodeId} {k : Kind}

/-- The roots of the trees in order, with their kinds. -/
def rootKinds : Forest → List (NodeId × Kind)
  | .nil => []
  | .token i k _ r => (i, k) :: r.rootKinds
  | .node i k _ r => (i, k) :: r.rootKinds

theorem map_fst_rootKinds (f : Forest) :
    f.rootKinds.map Prod.fst = f.roots := by
  induction f with
  | nil => rfl
  | token i k y r ih => simp [rootKinds, roots, ih]
  | node i k c r _ ih => simp [rootKinds, roots, ih]

/-- The outermost nodes are labelled with the kinds they are listed with. -/
theorem exists_label_of_mem_rootKinds (h : (n, k) ∈ f.rootKinds) :
    ∃ y, (n, k, y) ∈ f.labels := by
  induction f with
  | nil => cases h
  | token i k' y r ih =>
    rcases List.mem_cons.mp h with heq | hr
    · cases heq
      exact ⟨some y, List.mem_cons_self⟩
    · obtain ⟨y', hy'⟩ := ih hr
      exact ⟨y', List.mem_cons_of_mem _ hy'⟩
  | node i k' c r _ ih =>
    rcases List.mem_cons.mp h with heq | hr
    · cases heq
      exact ⟨none, List.mem_cons_self⟩
    · obtain ⟨y', hy'⟩ := ih hr
      exact ⟨y', List.mem_cons_of_mem _ (List.mem_append_right _ hy')⟩

theorem rootKinds_append (f g : Forest) :
    (f.append g).rootKinds = f.rootKinds ++ g.rootKinds := by
  induction f with
  | nil => rfl
  | token i k y r ih => simp [append, rootKinds, ih]
  | node i k c r _ ih => simp [append, rootKinds, ih]

/-- Every layer of a context comes before the hole. -/
theorem mem_left_of_mem {C : Context} {l : Layer} (h : l ∈ C) :
    (l.id, l.kind, none) ∈ C.left := by
  induction C with
  | nil => cases h
  | cons l' C ih =>
    rcases List.mem_cons.mp h with rfl | hC
    · simp [left]
    · exact List.mem_append_left _ (ih hC)

end Forest

namespace Tree

variable {t : Tree} {f g s c : Forest} {C : Context} {l : Layer}
  {n m p z : NodeId} {k k' : Kind} {x y : String} {tok : Token}

/-- The tree of a file with this document. -/
structure Shows (f : Forest) (t : Tree) : Prop where
  consistent : t.Consistent
  document : t.document = f

namespace Shows

theorem sound (h : t.Shows f) : t.Sound := h.consistent.sound

theorem nodup (h : t.Shows f) : f.ids.Nodup :=
  h.document ▸ h.sound.nodup_document

theorem begin (h : t.Shows f) : t.begin.Shows f :=
  ⟨h.consistent.begin, h.document⟩

theorem commit (h : t.Shows f) (c : Checkpoint) : (t.commit c).Shows f :=
  ⟨h.consistent.close c, h.document⟩

/-! ## Questions

What a tree answers about a node in the hole can be read off the context and
the hole. One lemma for each question that the rules for parameter lists ask
(specification, §13). -/

theorem label {y : Option String} (h : t.Shows (fill C g))
    (hl : (m, k, y) ∈ g.labels) :
    m ∈ t.document.ids ∧ t.kind? m = some k ∧ t.tokenText? m = y := by
  rw [← h.sound.mem_labels_document_iff, h.document, Forest.labels_fill]
  exact List.mem_append_left _ (List.mem_append_right _ hl)

/-- The tree of a node in the hole. -/
theorem subtree_eq (h : t.Shows (fill C g)) (hs : g.subtree? m = some s) :
    t.subtree m = s := by
  have hm : m ∈ g.ids := Forest.mem_of_subtree? hs
  have hdoc : m ∈ t.document.ids := by
    rw [h.document, Forest.ids_fill]
    exact List.mem_append_left _ (List.mem_append_right _ hm)
  have hfound := h.sound.subtree?_document hdoc
  rw [h.document, Forest.subtree?_fill hm (Forest.not_mem_context h.nodup hm).1,
    hs] at hfound
  exact (Option.some.inj hfound).symm

theorem children_eq (h : t.Shows (fill C (.node p k c .nil))) :
    t.children p = c.roots := by
  rw [children, h.subtree_eq (Forest.subtree?_of_roots_eq rfl)]
  rfl

theorem kind?_child (h : t.Shows (fill C (.node p k c .nil)))
    (hm : (m, k') ∈ c.rootKinds) : t.kind? m = some k' := by
  obtain ⟨y, hy⟩ := Forest.exists_label_of_mem_rootKinds hm
  exact (h.label (List.mem_cons_of_mem _ (List.mem_append_left _ hy))).2.1

theorem childOfKind?_eq (h : t.Shows (fill C (.node p k c .nil))) (k' : Kind) :
    t.childOfKind? p k' = (c.rootKinds.find? (·.2 == k')).map Prod.fst := by
  rw [childOfKind?, h.children_eq, ← Forest.map_fst_rootKinds, List.find?_map]
  refine congrArg _ (List.find?_congr fun e he => ?_)
  simp [hasKind, h.kind?_child he]

/-- A token, and its text. -/
theorem token (h : t.Shows (fill C (.token z k y .nil))) :
    t.kind? z = some k ∧ t.tokenText? z = some y :=
  (h.label List.mem_cons_self).2

/-- What stands around a tree. -/
theorem around (h : t.Shows (fill C s)) (hs : s.roots = [z]) :
    Forest.Around z t.document C.leftTokens s C.rightTokens := by
  have hz := (Forest.not_mem_context h.nodup (Forest.mem_ids_of_roots_eq hs)).1
  rw [h.document]
  rcases Forest.eq_of_roots_eq_singleton hs with ⟨k, y, rfl⟩ | ⟨k, c, rfl⟩
  · simpa [Forest.tokens] using (Forest.Around.token k y .nil).fill hz
  · simpa [Forest.tokens] using (Forest.Around.node k c .nil).fill hz

theorem nextLeaf?_eq (h : t.Shows (fill C (.token z k y .nil)))
    (hnext : C.rightTokens.head? = some tok) :
    t.nextLeaf? z = some tok.id ∧ t.kind? tok.id = some tok.kind := by
  constructor
  · rw [nextLeaf?, (h.sound.tokens_of_around (h.around rfl)).2, hnext]
    rfl
  · refine (h.sound.of_mem_tokens ?_).2.1
    rw [(h.around rfl).tokens_eq]
    exact List.mem_append_right _ (List.mem_of_head? hnext)

theorem prevLeaf?_eq (h : t.Shows (fill C (.token z k y .nil)))
    (hprev : C.leftTokens.getLast? = some tok) :
    t.prevLeaf? z = some tok.id ∧ t.kind? tok.id = some tok.kind := by
  constructor
  · rw [prevLeaf?, (h.sound.tokens_of_around (h.around rfl)).1,
      List.head?_reverse, hprev]
    rfl
  · refine (h.sound.of_mem_tokens ?_).2.1
    rw [(h.around rfl).tokens_eq, List.append_assoc]
    exact List.mem_append_left _ (List.mem_of_getLast? hprev)

/-- The parent of a node, and its siblings. -/
theorem siblings_eq (h : t.Shows (fill (l :: C) s)) (hs : s.roots = [z]) :
    t.children l.id = l.before.roots ++ z :: l.after.roots := by
  rw [children_eq (C := C) h, Forest.roots_append, Forest.roots_append, hs]
  rfl

theorem parent?_eq (h : t.Shows (fill (l :: C) s)) (hs : s.roots = [z]) :
    t.parent? z = some l.id := by
  rw [h.sound.parent?_eq_some_iff, h.siblings_eq hs]
  simp

theorem kind?_after (h : t.Shows (fill (l :: C) (.token z k y .nil)))
    (hm : (m, k') ∈ l.after.rootKinds) :
    t.kind? m = some k' := by
  refine kind?_child (C := C) h ?_
  rw [Forest.rootKinds_append, Forest.rootKinds_append]
  exact List.mem_append_right _ (List.mem_append_right _ hm)

theorem nextCodeSibling?_eq (h : t.Shows (fill (l :: C) (.token z k y .nil))) :
    t.nextCodeSibling? z = (l.after.rootKinds.find? fun e => !e.2.isTrivia).map
      Prod.fst := by
  rw [nextCodeSibling?, (h.sound.siblings_of_children (h.siblings_eq rfl)).2,
    ← Forest.map_fst_rootKinds,
    List.find?_map]
  refine congrArg _ (List.find?_congr fun e he => ?_)
  simp [kindIs, h.kind?_after he]

/-- What kind of code comes next on the same level. -/
theorem any_nextCodeSibling (h : t.Shows (fill (l :: C) (.token z k y .nil)))
    (k' : Kind) :
    (t.nextCodeSibling? z).any (fun next => t.hasKind next k') =
      (l.after.rootKinds.find? fun e => !e.2.isTrivia).any (·.2 == k') := by
  rw [h.nextCodeSibling?_eq, Option.any_map]
  refine any_congr fun e he => ?_
  simp [hasKind, h.kind?_after (List.mem_of_find?_eq_some he)]

/-- All layers are above what stands in the hole. -/
theorem ancestors_eq (h : t.Shows (fill C g)) (hn : n ∈ g.roots) :
    t.ancestors n = C.map Layer.id := by
  have hmem : n ∈ g.ids := Forest.mem_ids_of_mem_roots hn
  have hg : g.ids.Nodup := by
    have hall := h.nodup
    rw [Forest.ids_fill, List.nodup_append, List.nodup_append] at hall
    exact hall.1.2.1
  have hdoc : n ∈ t.document.ids := by
    rw [h.document, Forest.ids_fill]
    exact List.mem_append_left _ (List.mem_append_right _ hmem)
  have habove := h.sound.ancestors?_document hdoc
  rw [h.document, Forest.ancestors?_fill hmem
    (Forest.not_mem_context h.nodup hmem).1,
    (Forest.ancestors?_eq_nil_iff hg).mpr hn] at habove
  exact (Option.some.inj habove).symm

/-- What stands above the place settles whether it is inside a comment. -/
theorem inComment_eq (h : t.Shows (fill C g)) (hn : (n, k) ∈ g.rootKinds) :
    t.inComment n = (k.isComment || C.any fun l => l.kind.isComment) := by
  have hroot : n ∈ g.roots := by
    rw [← Forest.map_fst_rootKinds]
    exact List.mem_map.mpr ⟨_, hn, rfl⟩
  obtain ⟨y, hy⟩ := Forest.exists_label_of_mem_rootKinds hn
  rw [inComment, h.ancestors_eq hroot, kindIs, (h.label hy).2.1, List.any_map]
  have hlayer : ∀ l ∈ C, t.kindIs l.id Kind.isComment = l.kind.isComment := by
    intro l hl
    have hlabel : (l.id, l.kind, none) ∈ t.document.labels := by
      rw [h.document, Forest.labels_fill]
      exact List.mem_append_left _
        (List.mem_append_left _ (Forest.mem_left_of_mem hl))
    simp [kindIs, (h.sound.mem_labels_document_iff.mp hlabel).2.1]
  rw [Option.any_some]
  congr 1
  rw [Bool.eq_iff_iff, List.any_eq_true, List.any_eq_true]
  constructor
  · rintro ⟨l, hl, hk⟩
    exact ⟨l, hl, hlayer l hl ▸ hk⟩
  · rintro ⟨l, hl, hk⟩
    exact ⟨l, hl, (hlayer l hl).trans hk⟩

/-! ## Edits -/

/-- **Detaching empties the hole,** and always succeeds below a layer. -/
theorem detach (h : t.Shows (fill (l :: C) (.token z k y .nil))) :
    (t.detach z).failure = none ∧
      (t.detach z).tree.Shows (fill (l :: C) .nil) := by
  have hok : (t.detach z).failure = none := by
    rw [detach_succeeds_iff_parent h.sound, h.parent?_eq rfl]
    rfl
  obtain ⟨-, -, -, -, hdoc⟩ := detach_of_success h.sound hok
  obtain ⟨hl, hr⟩ := Forest.not_mem_context h.nodup (m := z) List.mem_cons_self
  refine ⟨hok, h.consistent.apply (.detach z), ?_⟩
  rw [hdoc, h.document, Forest.remove_fill hl hr, Forest.remove, if_pos rfl]

/-- **A new text is a new text in the hole.** -/
theorem replaceText (h : t.Shows (fill C (.token z k y .nil))) (x : String) :
    (t.replaceText z x).failure = none ∧
      (t.replaceText z x).tree.Shows (fill C (.token z k x .nil)) := by
  have hleaf : t.isLeaf z = true := by
    rw [isLeaf, h.token.2]
    rfl
  obtain ⟨hl, hr⟩ := Forest.not_mem_context h.nodup (m := z) List.mem_cons_self
  refine ⟨(replaceText_succeeds_iff t z x).mpr hleaf,
    h.consistent.apply (.replaceText z x), ?_⟩
  rw [document_replaceText h.sound hleaf, h.document,
    Forest.setText_fill x hl hr, Forest.setText, if_pos rfl]

/-- Where no white space follows, some is put in. -/
theorem spaceAfter (h : t.Shows (fill (l :: C) (.token z k y .nil)))
    (hx : x.isEmpty = false) (hnext : (rightTokens (l :: C)).head? = some tok)
    (htok : tok.kind ≠ .whitespace) :
    (t.spaceAfter z x).failure = none ∧
      ∃ new, (t.spaceAfter z x).tree.Shows
        (fill (l :: C) (.token z k y (.token new .whitespace x .nil))) := by
  have hz : z ∈ t.document.ids := (h.label List.mem_cons_self).1
  have hroot : z ≠ root := by
    rw [← h.sound.hasParent_iff hz, h.parent?_eq rfl]
    rfl
  obtain ⟨hleaf, hkind⟩ := h.nextLeaf?_eq hnext
  have hnone : (t.nextLeaf? z).filter (fun leaf => t.hasKind leaf .whitespace) =
      none := by
    simp [hleaf, Option.filter, hasKind, hkind, htok]
  have hgap : t.spaceAfter z x =
      (t.newToken .whitespace x).insertAfter z t.count := by
    simp [Tree.spaceAfter, fillGap, hnone, hx]
  have hok : (t.spaceAfter z x).failure = none :=
    (spaceAfter_succeeds_iff h.sound hz hx).mpr hroot
  have hu : (t.newToken .whitespace x).Shows
      (fill (l :: C) (.token z k y .nil)) :=
    ⟨h.consistent.grow (.token .whitespace x),
      (document_newToken h.sound x).trans h.document⟩
  refine ⟨hok, t.count, h.consistent.apply (.spaceAfter z x), ?_⟩
  rw [hgap] at hok ⊢
  obtain ⟨p, i, hp, hi, hdoc⟩ := insertAfter_of_success hu.sound hok
  obtain rfl : l.id = p := Option.some.inj ((hu.parent?_eq rfl).symm.trans hp)
  have hindex : i = l.before.roots.length := by
    have hnodup := hu.sound.nodup_children l.id
    have hlt : i < ((t.newToken .whitespace x).children l.id).length :=
      (List.getElem?_eq_some_iff.mp hi).1
    refine (List.getElem?_inj hlt hnodup).mp ?_
    rw [hi, hu.siblings_eq rfl]
    simp
  rw [hdoc, subtree_newToken h.sound, hu.document, hindex]
  exact Forest.insertUnder_fill_cons h.nodup _

end Shows

end Tree

end TreeLint
