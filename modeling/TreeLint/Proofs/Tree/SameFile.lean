import TreeLint.Proofs.Tree.Document
import Mathlib.Data.List.Find

/-!
# Trees of one file

Two trees may have the same document and still differ: in what is detached,
in how many nodes were ever created, in the journal and in the revision.
None of this can be found out by asking about attached nodes. Every question
a rule asks about a node of the document has the same answer in both trees
(`SameFile`), and every node in an answer is again a node of the document,
so that it can be asked about in turn.

The standard rules look at a file through these questions (specification,
§13).
-/

namespace TreeLint

/-- Tests that agree on what is there give the same answer. -/
theorem any_congr {α : Type} {o : Option α} {p q : α → Bool}
    (h : ∀ a, o = some a → p a = q a) : o.any p = o.any q := by
  cases o with
  | none => rfl
  | some a => exact h a rfl

/-- Tests that agree on what is there let the same through. -/
theorem filter_congr {α : Type} {o : Option α} {p q : α → Bool}
    (h : ∀ a, o = some a → p a = q a) :
    o.filter p = o.filter q := by
  cases o with
  | none => rfl
  | some a => rw [Option.filter_some, Option.filter_some, h a rfl]

namespace Tree

variable {t v : Tree} {n m p : NodeId}

/-! ## Answers are nodes of the document

A question about an attached node is answered by attached nodes, one lemma
for each question a rule can ask. They are what lets an answer be asked
about in turn. -/

namespace Sound

theorem child_mem_document (h : t.Sound) (hp : p ∈ t.document.ids)
    (hm : m ∈ t.children p) : m ∈ t.document.ids :=
  (h.parent_mem_document_iff (h.parent?_eq_some_iff.mpr hm)).mp hp

theorem parent_mem_document (h : t.Sound) (hn : n ∈ t.document.ids)
    (hp : t.parent? n = some p) : p ∈ t.document.ids :=
  (h.parent_mem_document_iff hp).mpr hn

theorem sibling_mem_document (h : t.Sound) (hn : n ∈ t.document.ids)
    (hm : m ∈ t.siblings n) : m ∈ t.document.ids := by
  unfold siblings at hm
  split at hm
  · next p hp => exact h.child_mem_document (h.parent_mem_document hn hp) hm
  · cases hm

theorem siblingAfter_mem_document (h : t.Sound) (hn : n ∈ t.document.ids)
    (hm : m ∈ t.siblingsAfter n) : m ∈ t.document.ids :=
  h.sibling_mem_document hn
    ((List.dropWhile_sublist _).subset (List.mem_of_mem_drop hm))

theorem siblingBefore_mem_document (h : t.Sound) (hn : n ∈ t.document.ids)
    (hm : m ∈ t.siblingsBefore n) : m ∈ t.document.ids :=
  h.sibling_mem_document hn
    ((List.takeWhile_sublist _).subset (List.mem_reverse.mp hm))

theorem nextSibling_mem_document (h : t.Sound) (hn : n ∈ t.document.ids)
    (hm : t.nextSibling? n = some m) : m ∈ t.document.ids :=
  h.siblingAfter_mem_document hn (List.mem_of_head? hm)

theorem nextCodeSibling_mem_document (h : t.Sound) (hn : n ∈ t.document.ids)
    (hm : t.nextCodeSibling? n = some m) : m ∈ t.document.ids :=
  h.siblingAfter_mem_document hn (List.mem_of_find?_eq_some hm)

theorem prevCodeSibling_mem_document (h : t.Sound) (hn : n ∈ t.document.ids)
    (hm : t.prevCodeSibling? n = some m) : m ∈ t.document.ids :=
  h.siblingBefore_mem_document hn (List.mem_of_find?_eq_some hm)

theorem childOfKind_mem_document (h : t.Sound) {k : Kind}
    (hp : p ∈ t.document.ids) (hm : t.childOfKind? p k = some m) :
    m ∈ t.document.ids :=
  h.child_mem_document hp (List.mem_of_find?_eq_some hm)

theorem lastChild_mem_document (h : t.Sound) (hp : p ∈ t.document.ids)
    (hm : t.lastChild? p = some m) : m ∈ t.document.ids :=
  h.child_mem_document hp (List.mem_of_getLast? hm)

/-- The tokens on either side of a node of the document are tokens of the
document. -/
theorem mem_tokens_of_beside (h : t.Sound) (hn : n ∈ t.document.ids)
    {tok : Token} (htok : tok ∈ t.tokensBefore n ∨ tok ∈ t.tokensAfter n) :
    tok ∈ t.document.tokens := by
  obtain ⟨pre, post, ha⟩ := h.around hn
  obtain ⟨hbefore, hafter⟩ := h.tokens_of_around ha
  rw [hbefore, hafter, List.mem_reverse] at htok
  rw [ha.tokens_eq]
  rcases htok with htok | htok
  · exact List.mem_append_left _ (List.mem_append_left _ htok)
  · exact List.mem_append_right _ htok

theorem tokenBefore_mem_document (h : t.Sound) (hn : n ∈ t.document.ids)
    {tok : Token} (htok : tok ∈ t.tokensBefore n) : tok.id ∈ t.document.ids :=
  (h.of_mem_tokens (h.mem_tokens_of_beside hn (Or.inl htok))).1

theorem tokenAfter_mem_document (h : t.Sound) (hn : n ∈ t.document.ids)
    {tok : Token} (htok : tok ∈ t.tokensAfter n) : tok.id ∈ t.document.ids :=
  (h.of_mem_tokens (h.mem_tokens_of_beside hn (Or.inr htok))).1

theorem prevLeaf_mem_document (h : t.Sound) (hn : n ∈ t.document.ids)
    (hm : t.prevLeaf? n = some m) : m ∈ t.document.ids := by
  obtain ⟨tok, htok, rfl⟩ := Option.map_eq_some_iff.mp hm
  exact h.tokenBefore_mem_document hn (List.mem_of_head? htok)

theorem nextLeaf_mem_document (h : t.Sound) (hn : n ∈ t.document.ids)
    (hm : t.nextLeaf? n = some m) : m ∈ t.document.ids := by
  obtain ⟨tok, htok, rfl⟩ := Option.map_eq_some_iff.mp hm
  exact h.tokenAfter_mem_document hn (List.mem_of_head? htok)

theorem prevCodeLeaf_mem_document (h : t.Sound) (hn : n ∈ t.document.ids)
    (hm : t.prevCodeLeaf? n = some m) : m ∈ t.document.ids := by
  obtain ⟨tok, htok, rfl⟩ := Option.map_eq_some_iff.mp hm
  exact h.tokenBefore_mem_document hn (List.mem_of_find?_eq_some htok)

theorem nextCodeLeaf_mem_document (h : t.Sound) (hn : n ∈ t.document.ids)
    (hm : t.nextCodeLeaf? n = some m) : m ∈ t.document.ids := by
  obtain ⟨tok, htok, rfl⟩ := Option.map_eq_some_iff.mp hm
  exact h.tokenAfter_mem_document hn (List.mem_of_find?_eq_some htok)

end Sound

/-! ## The same answers

Two trees with one document answer every question about it alike, whatever
else they hold: one lemma for each question, each from those before it. -/

/-- Two sound trees with one document. -/
structure SameFile (t v : Tree) : Prop where
  left : t.Sound
  right : v.Sound
  document : v.document = t.document

namespace SameFile

theorem refl (h : t.Sound) : SameFile t t := ⟨h, h, rfl⟩

theorem trans {u : Tree} (s : SameFile t u)
    (s' : SameFile u v) : SameFile t v :=
  ⟨s.left, s'.right, s'.document.trans s.document⟩

/-- What is recorded does not matter. -/
theorem congr {u : Tree} (s : SameFile t v) (hu : u.Sound)
    (hf : u.forest = v.forest) : SameFile t u :=
  ⟨s.left, hu, (document_congr hf).trans s.document⟩

theorem toText (s : SameFile t v) : v.toText = t.toText :=
  congrArg Forest.text s.document

theorem isAttached (s : SameFile t v) (n : NodeId) :
    v.isAttached n = t.isAttached n := by
  rw [Bool.eq_iff_iff, ← s.right.mem_document_iff,
    ← s.left.mem_document_iff, s.document]

theorem mem (s : SameFile t v) (hn : n ∈ t.document.ids) : n ∈ v.document.ids :=
  s.document.symm ▸ hn

/-! ### One node -/

theorem subtree (s : SameFile t v) (hn : n ∈ t.document.ids) :
    v.subtree n = t.subtree n := by
  have hv := s.right.subtree?_document (s.mem hn)
  rw [s.document, s.left.subtree?_document hn] at hv
  exact (Option.some.inj hv).symm

theorem component (s : SameFile t v) (hn : n ∈ t.document.ids) :
    v.component n = t.component n := by
  rw [s.right.component_eq (s.mem hn), s.left.component_eq hn, s.document]

theorem ancestors (s : SameFile t v) (hn : n ∈ t.document.ids) :
    v.ancestors n = t.ancestors n := by
  obtain ⟨as, ha⟩ := Forest.exists_ancestors hn
  obtain ⟨x, hx⟩ := s.left.forest_eq
  obtain ⟨y, hy⟩ := s.right.forest_eq
  rw [s.document] at hy
  simp only [Tree.ancestors, hx, hy, Forest.ancestors?_append, ha,
    Option.some_or]

theorem kind? (s : SameFile t v) (hn : n ∈ t.document.ids) :
    v.kind? n = t.kind? n := by
  rw [Tree.kind?, Tree.kind?, s.subtree hn]

theorem hasKind (s : SameFile t v) (hn : n ∈ t.document.ids) (k : Kind) :
    v.hasKind n k = t.hasKind n k := by
  rw [Tree.hasKind, Tree.hasKind, s.kind? hn]

theorem kindIs (s : SameFile t v) (hn : n ∈ t.document.ids)
    (test : Kind → Bool) :
    v.kindIs n test = t.kindIs n test := by
  rw [Tree.kindIs, Tree.kindIs, s.kind? hn]

theorem tokenText? (s : SameFile t v) (hn : n ∈ t.document.ids) :
    v.tokenText? n = t.tokenText? n := by
  rw [Tree.tokenText?, Tree.tokenText?, s.subtree hn]

theorem text (s : SameFile t v) (hn : n ∈ t.document.ids) :
    v.text n = t.text n := by
  rw [Tree.text, Tree.text, s.subtree hn]

theorem startOffset (s : SameFile t v) (hn : n ∈ t.document.ids) :
    v.startOffset n = t.startOffset n := by
  rw [Tree.startOffset, Tree.startOffset, s.component hn]

theorem isBreak (s : SameFile t v) (hn : n ∈ t.document.ids) :
    v.isBreak n = t.isBreak n := by
  rw [Tree.isBreak, Tree.isBreak, s.hasKind hn, s.tokenText? hn]

theorem isInlineSpace (s : SameFile t v) (hn : n ∈ t.document.ids) :
    v.isInlineSpace n = t.isInlineSpace n := by
  rw [Tree.isInlineSpace, Tree.isInlineSpace, s.hasKind hn, s.tokenText? hn]

/-! ### Up, down and sideways -/

theorem parent? (s : SameFile t v) (hn : n ∈ t.document.ids) :
    v.parent? n = t.parent? n := by
  rw [Tree.parent?, Tree.parent?, s.ancestors hn]

theorem children (s : SameFile t v) (hn : n ∈ t.document.ids) :
    v.children n = t.children n := by
  rw [Tree.children, Tree.children, s.subtree hn]

theorem lastChild? (s : SameFile t v) (hn : n ∈ t.document.ids) :
    v.lastChild? n = t.lastChild? n := by
  rw [Tree.lastChild?, Tree.lastChild?, s.children hn]

theorem childOfKind? (s : SameFile t v) (hn : n ∈ t.document.ids) (k : Kind) :
    v.childOfKind? n k = t.childOfKind? n k := by
  rw [Tree.childOfKind?, Tree.childOfKind?, s.children hn]
  exact List.find?_congr fun c hc =>
    s.hasKind (s.left.child_mem_document hn hc) k

/-- Siblings go through the parent, so its place matters as well. -/
theorem siblings (s : SameFile t v) (hn : n ∈ t.document.ids) :
    v.siblings n = t.siblings n := by
  rw [Tree.siblings, Tree.siblings, s.parent? hn]
  split
  · next p hp => exact s.children (s.left.parent_mem_document hn hp)
  · rfl

theorem siblingsAfter (s : SameFile t v) (hn : n ∈ t.document.ids) :
    v.siblingsAfter n = t.siblingsAfter n := by
  rw [Tree.siblingsAfter, Tree.siblingsAfter, s.siblings hn]

theorem siblingsBefore (s : SameFile t v) (hn : n ∈ t.document.ids) :
    v.siblingsBefore n = t.siblingsBefore n := by
  rw [Tree.siblingsBefore, Tree.siblingsBefore, s.siblings hn]

theorem nextSibling? (s : SameFile t v) (hn : n ∈ t.document.ids) :
    v.nextSibling? n = t.nextSibling? n := by
  rw [Tree.nextSibling?, Tree.nextSibling?, s.siblingsAfter hn]

theorem nextCodeSibling? (s : SameFile t v) (hn : n ∈ t.document.ids) :
    v.nextCodeSibling? n = t.nextCodeSibling? n := by
  rw [Tree.nextCodeSibling?, Tree.nextCodeSibling?, s.siblingsAfter hn]
  exact List.find?_congr fun m hm =>
    congrArg not (s.kindIs (s.left.siblingAfter_mem_document hn hm) _)

theorem prevCodeSibling? (s : SameFile t v) (hn : n ∈ t.document.ids) :
    v.prevCodeSibling? n = t.prevCodeSibling? n := by
  rw [Tree.prevCodeSibling?, Tree.prevCodeSibling?, s.siblingsBefore hn]
  exact List.find?_congr fun m hm =>
    congrArg not (s.kindIs (s.left.siblingBefore_mem_document hn hm) _)

/-! ### Leaves -/

theorem tokensBefore (s : SameFile t v) (hn : n ∈ t.document.ids) :
    v.tokensBefore n = t.tokensBefore n := by
  rw [Tree.tokensBefore, Tree.tokensBefore, s.component hn]

theorem tokensAfter (s : SameFile t v) (hn : n ∈ t.document.ids) :
    v.tokensAfter n = t.tokensAfter n := by
  rw [Tree.tokensAfter, Tree.tokensAfter, s.component hn]

theorem prevLeaf? (s : SameFile t v) (hn : n ∈ t.document.ids) :
    v.prevLeaf? n = t.prevLeaf? n := by
  rw [Tree.prevLeaf?, Tree.prevLeaf?, s.tokensBefore hn]

theorem nextLeaf? (s : SameFile t v) (hn : n ∈ t.document.ids) :
    v.nextLeaf? n = t.nextLeaf? n := by
  rw [Tree.nextLeaf?, Tree.nextLeaf?, s.tokensAfter hn]

theorem indent (s : SameFile t v) (hn : n ∈ t.document.ids) :
    v.indent n = t.indent n := by
  rw [Tree.indent, Tree.indent, s.tokensBefore hn]

theorem inComment (s : SameFile t v) (hn : n ∈ t.document.ids) :
    v.inComment n = t.inComment n := by
  have habove : (t.ancestors n).any (fun a => v.kindIs a Kind.isComment) =
      (t.ancestors n).any (fun a => t.kindIs a Kind.isComment) := by
    rw [Bool.eq_iff_iff, List.any_eq_true, List.any_eq_true]
    refine exists_congr fun a => and_congr_right fun ha => ?_
    rw [s.kindIs (s.left.ancestor_mem_document hn ha)]
  rw [Tree.inComment, Tree.inComment, s.kindIs hn, s.ancestors hn, habove]

theorem isCodeToken (s : SameFile t v) {tok : Token}
    (htok : tok.id ∈ t.document.ids) :
    v.isCodeToken tok = t.isCodeToken tok := by
  rw [Tree.isCodeToken, Tree.isCodeToken, s.inComment htok]

theorem prevCodeLeaf? (s : SameFile t v) (hn : n ∈ t.document.ids) :
    v.prevCodeLeaf? n = t.prevCodeLeaf? n := by
  rw [Tree.prevCodeLeaf?, Tree.prevCodeLeaf?, s.tokensBefore hn]
  exact congrArg _ (List.find?_congr fun tok htok =>
    s.isCodeToken (s.left.tokenBefore_mem_document hn htok))

theorem nextCodeLeaf? (s : SameFile t v) (hn : n ∈ t.document.ids) :
    v.nextCodeLeaf? n = t.nextCodeLeaf? n := by
  rw [Tree.nextCodeLeaf?, Tree.nextCodeLeaf?, s.tokensAfter hn]
  exact congrArg _ (List.find?_congr fun tok htok =>
    s.isCodeToken (s.left.tokenAfter_mem_document hn htok))

end SameFile

end Tree

end TreeLint
