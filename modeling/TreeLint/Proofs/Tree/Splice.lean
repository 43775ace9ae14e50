import TreeLint.Proofs.Forest.Text
import TreeLint.Proofs.Lint.Isolation
import TreeLint.Proofs.Tree.Document

/-!
# Edits as splices of the text

Seen from the text of the file, an edit of structure or text that succeeds
puts one text in the place of another (`Spliced`), at the bytes that the
offsets and lengths of the nodes concerned give. `edits_splice` says so of
every edit of attached nodes. All of them come down to where tokens stand
around a node before and after the edit.

Specification, §3.
-/

namespace TreeLint

/-- The bytes from `start` on, `length` of them, are replaced by `new`. -/
def Text.Spliced (start length : Nat) (new before after : String) : Prop :=
  ∃ front gone back, before = front ++ gone ++ back ∧
    front.utf8ByteSize = start ∧
    gone.utf8ByteSize = length ∧ after = front ++ new ++ back

/-- There is one way to cut a text at a byte. -/
theorem Text.append_inj {a b c d : String} (h : a ++ b = c ++ d)
    (hsize : a.utf8ByteSize = c.utf8ByteSize) : a = c ∧ b = d := by
  have hbytes : a.toByteArray ++ b.toByteArray =
      c.toByteArray ++ d.toByteArray := by
    rw [← String.toByteArray_append, h, String.toByteArray_append]
  have hdata := congrArg ByteArray.data hbytes
  simp only [ByteArray.data_append] at hdata
  obtain ⟨hac, hbd⟩ := Array.append_inj hdata hsize
  exact ⟨String.toByteArray_inj.mp (ByteArray.ext hac),
    String.toByteArray_inj.mp (ByteArray.ext hbd)⟩

/-- So a splice leaves no choice. -/
theorem Text.Spliced.unique {start length : Nat}
    {new before after after' : String}
    (h : Spliced start length new before after)
    (h' : Spliced start length new before after') : after' = after := by
  obtain ⟨front, gone, back, hbefore, hstart, hlength, rfl⟩ := h
  obtain ⟨front', gone', back', hbefore', hstart', hlength', rfl⟩ := h'
  rw [hbefore', String.append_assoc, String.append_assoc] at hbefore
  obtain ⟨rfl, hrest⟩ := Text.append_inj hbefore (hstart'.trans hstart.symm)
  obtain ⟨-, rfl⟩ := Text.append_inj hrest (hlength'.trans hlength.symm)
  rfl

namespace Tree

open Text (Spliced)

variable {t u : Tree} {n a p c : NodeId} {i : Nat} {s : Forest}
  {pre gone new post : List Token} {x : String}

/-! ## Text and offsets

Text and offsets of a tree, in terms of the tokens of its document. Offsets
count bytes (specification, §3), so every position is the size of a text. -/

theorem toText_eq (t : Tree) : t.toText = Token.texts t.document.tokens :=
  Forest.text_eq _

theorem text_eq (t : Tree) (n : NodeId) :
    t.text n = Token.texts (t.subtree n).tokens :=
  Forest.text_eq _

theorem textLength_eq (t : Tree) (n : NodeId) :
    t.textLength n = (t.text n).utf8ByteSize :=
  Forest.byteLength_eq _

theorem text_congr (h : u.subtree n = t.subtree n) : u.text n = t.text n :=
  by rw [text, h, text]

namespace Sound

theorem startOffset_eq (h : t.Sound)
    (ha : Forest.Around n t.document pre s post) :
    t.startOffset n = (Token.texts pre).utf8ByteSize := by
  rw [startOffset, h.component_eq ha.mem, ha.offset?, Option.getD_some]

theorem subtree_eq (h : t.Sound)
    (ha : Forest.Around n t.document pre s post) : t.subtree n = s :=
  Option.some.inj ((h.subtree?_document ha.mem).symm.trans ha.subtree?)

theorem around_of_attached (h : t.Sound) (hn : t.isAttached n = true) :
    ∃ pre post, Forest.Around n t.document pre (t.subtree n) post :=
  h.around (h.mem_document_iff.mpr hn)

theorem text_token (h : t.Sound) {tok : Token}
    (htok : tok ∈ t.document.tokens) : t.text tok.id = tok.text := by
  obtain ⟨front, back, hl⟩ := List.append_of_mem htok
  rw [text, h.subtree_eq (h.around_of_tokens hl)]
  simp [Forest.text]

end Sound

/-- Tokens that take the place of others splice the text. -/
theorem spliced_tokens (ht : t.document.tokens = pre ++ gone ++ post)
    (hu : u.document.tokens = pre ++ new ++ post) :
    Spliced (Token.texts pre).utf8ByteSize (Token.texts gone).utf8ByteSize
      (Token.texts new)
      t.toText u.toText := by
  refine ⟨_, _, Token.texts post, ?_, rfl, rfl, ?_⟩
  · rw [toText_eq, ht, Token.texts_append, Token.texts_append]
  · rw [toText_eq, hu, Token.texts_append, Token.texts_append]

/-- In the place of a node. -/
theorem spliced_at (h : t.Sound) (new : List Token)
    (ha : Forest.Around n t.document pre (t.subtree n) post)
    (hu : u.document.tokens = pre ++ new ++ post) :
    Spliced (t.startOffset n) (t.textLength n) (Token.texts new) t.toText
      u.toText := by
  rw [h.startOffset_eq ha, textLength_eq, text_eq]
  exact spliced_tokens ha.tokens_eq hu

/-- Before a node. -/
theorem spliced_before (h : t.Sound)
    (ha : Forest.Around n t.document pre (t.subtree n) post)
    (hu : u.document.tokens = pre ++ new ++ (t.subtree n).tokens ++ post) :
    Spliced (t.startOffset n) 0 (Token.texts new) t.toText u.toText := by
  rw [h.startOffset_eq ha]
  refine @spliced_tokens t u pre [] new ((t.subtree n).tokens ++ post) ?_ ?_
  · simpa using ha.tokens_eq
  · simpa using hu

/-- Behind a node. -/
theorem spliced_after (h : t.Sound)
    (ha : Forest.Around n t.document pre (t.subtree n) post)
    (hu : u.document.tokens = pre ++ (t.subtree n).tokens ++ new ++ post) :
    Spliced (t.startOffset n + t.textLength n) 0 (Token.texts new) t.toText
      u.toText := by
  have hend : t.startOffset n + t.textLength n =
      (Token.texts (pre ++ (t.subtree n).tokens)).utf8ByteSize := by
    rw [h.startOffset_eq ha, textLength_eq, text_eq, Token.texts_append,
      String.utf8ByteSize_append]
  rw [hend]
  refine @spliced_tokens t u _ [] new post ?_ hu
  simpa using ha.tokens_eq

/-! ## One edit -/

/-- A tree that is attached stays what it was. -/
theorem Graftable.subtree_graft (g : t.Graftable p i c) (h : t.Sound) :
    (t.graft p i c).subtree c = t.subtree c := by
  obtain ⟨-, hroots, hp⟩ := g.parts h
  apply subtree_of_subtree?
  exact Forest.subtree?_insertUnder_self i hroots
    (Forest.not_mem_remove h.nodup) hp

/-- What has nothing to do with a tree that is cut off stays what it was,
too. -/
theorem subtree_cut_of_disjoint (h : t.Sound) (hi : (t.children p)[i]? = some n)
    (hc : c ∉ (t.subtree n).ids) (hn : n ∉ (t.subtree c).ids) :
    (t.cut n).subtree c = t.subtree c := by
  obtain ⟨s, hs⟩ := Forest.exists_subtree
    (contains_iff_mem.mp (contains_of_childAt h hi).2)
  rw [subtree_of_subtree? hs] at hc
  unfold subtree at hn
  simp only [subtree, cut, hs, Option.getD_some]
  rw [Forest.subtree?_place c n s _ hc, Forest.subtree?_remove h.nodup hs hc]
  cases hsub : t.forest.subtree? c with
  | none => rfl
  | some s' =>
    rw [hsub, Option.getD_some] at hn
    rw [Option.map_some, Option.getD_some, Forest.remove_of_not_mem hn,
      Option.getD_some]

theorem text_detach (h : t.Sound) (hok : (t.detach n).failure = none) :
    (t.detach n).tree.text n = t.text n := by
  obtain ⟨p, i, hi, hforest, -⟩ := detach_of_success h hok
  apply text_congr
  rw [← subtree_cut h hi, subtree, subtree, hforest]

/-- **Detaching cuts the text of the node out** of the text of the file. -/
theorem spliced_detach (h : t.Sound) (hn : t.isAttached n = true)
    (hok : (t.detach n).failure = none) :
    Spliced (t.startOffset n) (t.textLength n) "" t.toText
      (t.detach n).tree.toText := by
  obtain ⟨pre, post, ha⟩ := h.around_of_attached hn
  obtain ⟨-, -, -, -, hdoc⟩ := detach_of_success h hok
  refine spliced_at h [] ha ?_
  rw [hdoc, ha.tokens_remove h.nodup_document, List.append_nil]

/-- Where the child at an index of a node starts, or where the node ends if
it has no more children. -/
def childOffset (t : Tree) (p : NodeId) (i : Nat) : Nat :=
  match (t.children p)[i]? with
  | some child => t.startOffset child
  | none => t.startOffset p + t.textLength p

theorem subtree_insertChild (h : t.Sound)
    (hok : (t.insertChild p i c).failure = none) :
    (t.insertChild p i c).tree.subtree c = t.subtree c := by
  obtain ⟨g, htree⟩ := insertChild_eq_graft h hok
  rw [← g.subtree_graft h, htree, subtree, subtree, record_forest]

/-- **Attaching puts the text of the node in,** where the child at its index
began, or at the end of the parent. -/
theorem spliced_insertChild (h : t.Sound) (hp : t.isAttached p = true)
    (hok : (t.insertChild p i c).failure = none) :
    Spliced (t.childOffset p i) 0 (t.text c) t.toText
      (t.insertChild p i c).tree.toText := by
  obtain ⟨g, hdoc⟩ := insertChild_of_success h hok
  have hpdoc := h.mem_document_iff.mpr hp
  have hkids := h.offspring_document hpdoc
  rw [text_eq, childOffset]
  cases hchild : (t.children p)[i]? with
  | some z =>
    have hz : t.isAttached z = true := by
      have hparent := h.parent?_eq_some_iff.mpr (List.mem_of_getElem? hchild)
      exact h.mem_document_iff.mp ((h.parent_mem_document_iff hparent).mp hpdoc)
    obtain ⟨pre, post, ha⟩ := h.around_of_attached hz
    refine spliced_before h ha ?_
    rw [hdoc, (ha.tokens_insertUnder h.nodup_document (hkids ▸ hchild)).1]
  | none =>
    obtain ⟨k, d, hd⟩ := isComposite_of_not_isLeaf g.parent_exists
      g.parent_composite
    have hsub := subtree_of_subtree? hd
    obtain ⟨pre, post, ha⟩ := h.around_of_attached hp
    have hlast : i = d.roots.length := by
      have hbound := g.bound
      have hlen : (t.children p).length ≤ i :=
        List.getElem?_eq_none_iff.mp hchild
      rw [children, hsub] at hbound hlen
      exact Nat.le_antisymm hbound hlen
    refine spliced_after h ha ?_
    rw [hsub] at ha ⊢
    rw [hdoc, hlast, ha.tokens_insertUnder_last h.nodup_document]
    simp [Forest.tokens]

theorem insertBefore_of_success (hok : (t.insertBefore a c).failure = none) :
    ∃ (p : NodeId) (i : Nat), t.parent? a = some p ∧
      (t.children p)[i]? = some a ∧
      t.insertBefore a c = t.insertChild p i c := by
  unfold insertBefore at hok ⊢
  split at hok
  · next p i hp hi => exact ⟨p, i, hp, childAt_of_childIndex? hp hi, rfl⟩
  · cases hok

/-- What is put before a node comes to stand right before it. -/
theorem Sound.around_insertBefore (h : t.Sound)
    (ha : Forest.Around a t.document pre s post)
    (hok : (t.insertBefore a c).failure = none) :
    Forest.Around a (t.insertBefore a c).tree.document
      (pre ++ (t.subtree c).tokens) s post := by
  obtain ⟨p, i, hp, hi, heq⟩ := insertBefore_of_success hok
  rw [heq] at hok ⊢
  obtain ⟨g, hdoc⟩ := insertChild_of_success h hok
  have hkids := h.offspring_document ((h.parent_mem_document_iff hp).mpr ha.mem)
  rw [hdoc]
  exact (ha.insertUnder h.nodup_document (hkids ▸ hi)).1
    (g.not_mem_subtree h hp)

/-- What is put behind a node comes to stand right behind it. -/
theorem Sound.around_insertAfter (h : t.Sound)
    (ha : Forest.Around a t.document pre s post)
    (hok : (t.insertAfter a c).failure = none) :
    Forest.Around a (t.insertAfter a c).tree.document pre s
      ((t.subtree c).tokens ++ post) := by
  obtain ⟨p, i, hp, hi, hdoc⟩ := insertAfter_of_success h hok
  have hkids := h.offspring_document ((h.parent_mem_document_iff hp).mpr ha.mem)
  rw [hdoc]
  exact (ha.insertUnder h.nodup_document (hkids ▸ hi)).2

/-- Attaching in front of a node puts the text in where that node starts. -/
theorem spliced_insertBefore (h : t.Sound) (ha : t.isAttached a = true)
    (hok : (t.insertBefore a c).failure = none) :
    Spliced (t.startOffset a) 0 (t.text c) t.toText
      (t.insertBefore a c).tree.toText ∧
      (t.insertBefore a c).tree.text c = t.text c := by
  obtain ⟨p, i, hp, hi, heq⟩ := insertBefore_of_success hok
  rw [heq] at hok ⊢
  have hp' := h.mem_document_iff.mp
    ((h.parent_mem_document_iff hp).mpr (h.mem_document_iff.mpr ha))
  have hspliced := spliced_insertChild h hp' hok
  rw [childOffset, hi] at hspliced
  exact ⟨hspliced, text_congr (subtree_insertChild h hok)⟩

/-- Attaching behind a node puts the text in where that node ends. -/
theorem spliced_insertAfter (h : t.Sound) (ha : t.isAttached a = true)
    (hok : (t.insertAfter a c).failure = none) :
    Spliced (t.startOffset a + t.textLength a) 0 (t.text c) t.toText
      (t.insertAfter a c).tree.toText ∧
      (t.insertAfter a c).tree.text c = t.text c := by
  constructor
  · obtain ⟨pre, post, haround⟩ := h.around_of_attached ha
    rw [text_eq]
    refine spliced_after h haround ?_
    rw [(h.around_insertAfter haround hok).tokens_eq,
      List.append_assoc _ (t.subtree c).tokens]
  · unfold insertAfter at hok ⊢
    split at hok
    · exact text_congr (subtree_insertChild h hok)
    · cases hok

/-- A new text for a token takes the place of the old one. -/
theorem spliced_replaceText (h : t.Sound) (hn : t.isAttached n = true)
    (hok : (t.replaceText n x).failure = none) :
    Spliced (t.startOffset n) (t.textLength n) x t.toText
      (t.replaceText n x).tree.toText := by
  obtain ⟨pre, post, ha⟩ := h.around_of_attached hn
  unfold replaceText at hok ⊢
  split at hok
  · next y hy =>
    obtain ⟨k, hs⟩ := subtree?_of_tokenText? hy
    have hsub := subtree_of_subtree? hs
    have hspliced := spliced_at (u := (t.retext n x).record (.retexted n y)) h
      [⟨n, k, x⟩] ha ?_
    · simpa [Token.texts] using hspliced
    · rw [hsub] at ha
      rw [document_congr (record_forest _ _), document_retext h,
        ha.tokens_setText h.nodup_document]
      simp
  · cases hok

/-! ## Two edits -/

/-- Replacing puts one text in the place of another, and both trees keep
theirs. -/
theorem spliced_replace (h : t.Sound) {old : NodeId}
    (hold : t.isAttached old = true) (hok : (t.replace old c).failure = none) :
    Spliced (t.startOffset old) (t.textLength old) (t.text c) t.toText
      (t.replace old c).tree.toText ∧
      (t.replace old c).tree.text old = t.text old ∧
        (t.replace old c).tree.text c = t.text c := by
  obtain ⟨pre, post, ha⟩ := h.around_of_attached hold
  obtain ⟨hinsert, hnext⟩ := andThen_of_success hok
  -- where the old node stands once the new one is there
  have hau := h.around_insertBefore ha hinsert
  obtain ⟨p, i, hp, -, heq⟩ := insertBefore_of_success hinsert
  rw [replace, hnext] at hok ⊢
  rw [heq] at hinsert hau hok ⊢
  obtain ⟨g, -⟩ := insertChild_of_success h hinsert
  let u := (t.insertChild p i c).tree
  have hu : u.Sound := h.changes (changes_insertChild h p i c)
  have hout : old ∉ (t.subtree c).ids := g.not_mem_subtree h hp
  have hsub : u.subtree old = t.subtree old := hu.subtree_eq hau
  obtain ⟨q, j, hj, hforest, hdoc'⟩ := detach_of_success hu hok
  refine ⟨?_, (text_detach hu hok).trans (text_congr hsub), ?_⟩
  · rw [text_eq]
    refine spliced_at h _ ha ?_
    rw [hdoc', hau.tokens_remove hu.nodup_document]
  · have hnew : u.subtree c = t.subtree c := subtree_insertChild h hinsert
    have hcout : c ∉ (u.subtree old).ids := by
      rw [hsub]
      intro hmem
      have hcdoc := Forest.ids_subtree?_subset (h.subtree?_document ha.mem) hmem
      rw [h.mem_document_iff, isAttached,
        ancestors_of_parent?_eq_none g.child_detached] at hcdoc
      simp [g.child_ne_root] at hcdoc
    apply text_congr
    rw [← hnew, ← subtree_cut_of_disjoint hu hj hcout (hnew ▸ hout), subtree,
      subtree, hforest]

/-- What is attached and not below a node that is cut off stays attached. -/
theorem isAttached_detach (h : t.Sound) (ha : t.isAttached a = true)
    (hok : (t.detach n).failure = none) (hout : a ∉ (t.subtree n).ids) :
    (t.detach n).tree.isAttached a = true := by
  have hu : (t.detach n).tree.Sound := h.changes (changes_detach t n)
  obtain ⟨p, i, hi, -, hdoc⟩ := detach_of_success h hok
  rw [← hu.mem_document_iff, hdoc]
  have hadoc := h.mem_document_iff.mpr ha
  by_cases hn : n ∈ t.document.ids
  · obtain ⟨s, hs⟩ := Forest.exists_subtree hadoc
    refine Forest.mem_of_subtree? (s := s.remove n) ?_
    rw [Forest.subtree?_remove h.nodup_document (h.subtree?_document hn) hout,
      hs, Option.map_some]
  · rwa [Forest.remove_of_not_mem hn]

/-- If a node can be put next to `a` after it was cut off, `a` is attached
then. -/
theorem isAttached_of_move (h : t.Sound) (ha : t.isAttached a = true)
    (hok : (t.detach n).failure = none)
    (hp : (t.detach n).tree.parent? a = some p)
    (hinsert : ((t.detach n).tree.insertChild p i n).failure = none) :
    (t.detach n).tree.isAttached a = true := by
  have hu : (t.detach n).tree.Sound := h.changes (changes_detach t n)
  obtain ⟨q, j, hj, hforest, -⟩ := detach_of_success h hok
  have hsub : (t.detach n).tree.subtree n = t.subtree n := by
    rw [← subtree_cut h hj, subtree, subtree, hforest]
  obtain ⟨g, -⟩ := insertChild_eq_graft hu hinsert
  exact isAttached_detach h ha hok (hsub ▸ g.not_mem_subtree hu hp)

/-- Moving is cutting the text out and putting it in behind the anchor, at
the offset the anchor has by then. -/
theorem spliced_moveAfter (h : t.Sound) (hn : t.isAttached n = true)
    (ha : t.isAttached a = true) (hok : (t.moveAfter n a).failure = none) :
    let u := (t.detach n).tree
    Spliced (t.startOffset n) (t.textLength n) "" t.toText u.toText ∧
      Spliced (u.startOffset a + u.textLength a) 0 (t.text n) u.toText
        (t.moveAfter n a).tree.toText ∧
      (t.moveAfter n a).tree.text n = t.text n := by
  intro u
  have hu : u.Sound := h.changes (changes_detach t n)
  obtain ⟨hdetach, hnext⟩ := andThen_of_success hok
  rw [moveAfter, hnext] at hok ⊢
  have ha' : u.isAttached a = true := by
    unfold insertAfter at hok
    split at hok
    · next p i hp hi => exact isAttached_of_move h ha hdetach hp hok
    · cases hok
  obtain ⟨hspliced, htext⟩ := spliced_insertAfter hu ha' hok
  rw [← text_detach h hdetach]
  exact ⟨spliced_detach h hn hdetach, hspliced, htext⟩

/-- The same in front of the anchor. -/
theorem spliced_moveBefore (h : t.Sound) (hn : t.isAttached n = true)
    (ha : t.isAttached a = true) (hok : (t.moveBefore n a).failure = none) :
    let u := (t.detach n).tree
    Spliced (t.startOffset n) (t.textLength n) "" t.toText u.toText ∧
      Spliced (u.startOffset a) 0 (t.text n) u.toText
        (t.moveBefore n a).tree.toText ∧
      (t.moveBefore n a).tree.text n = t.text n := by
  intro u
  have hu : u.Sound := h.changes (changes_detach t n)
  obtain ⟨hdetach, hnext⟩ := andThen_of_success hok
  rw [moveBefore, hnext] at hok ⊢
  have ha' : u.isAttached a = true := by
    obtain ⟨p, i, hp, hi, heq⟩ := insertBefore_of_success hok
    exact isAttached_of_move h ha hdetach hp (heq ▸ hok)
  obtain ⟨hspliced, htext⟩ := spliced_insertBefore hu ha' hok
  rw [← text_detach h hdetach]
  exact ⟨spliced_detach h hn hdetach, hspliced, htext⟩

/-! ## Every edit -/

/-- What edits of attached nodes that succeed do to the text of a tree, and
that they leave alone the text of what they attach, detach or move. -/
structure EditsSplice (t : Tree) : Prop where
  detach : ∀ n, t.isAttached n = true → (t.detach n).failure = none →
    Spliced (t.startOffset n) (t.textLength n) "" t.toText
      (t.detach n).tree.toText ∧
      (t.detach n).tree.text n = t.text n
  insertBefore : ∀ a x, t.isAttached a = true →
    (t.insertBefore a x).failure = none →
    Spliced (t.startOffset a) 0 (t.text x) t.toText
      (t.insertBefore a x).tree.toText ∧
      (t.insertBefore a x).tree.text x = t.text x
  insertAfter : ∀ a x, t.isAttached a = true →
    (t.insertAfter a x).failure = none →
    Spliced (t.startOffset a + t.textLength a) 0 (t.text x) t.toText
      (t.insertAfter a x).tree.toText ∧
      (t.insertAfter a x).tree.text x = t.text x
  insertChild : ∀ p i x, t.isAttached p = true →
    (t.insertChild p i x).failure = none →
    Spliced (t.childOffset p i) 0 (t.text x) t.toText
      (t.insertChild p i x).tree.toText ∧
      (t.insertChild p i x).tree.text x = t.text x
  replace : ∀ old new, t.isAttached old = true →
      (t.replace old new).failure = none →
    Spliced (t.startOffset old) (t.textLength old) (t.text new) t.toText
      (t.replace old new).tree.toText ∧
      (t.replace old new).tree.text old = t.text old ∧
        (t.replace old new).tree.text new = t.text new
  replaceText : ∀ leaf x, t.isAttached leaf = true →
    (t.replaceText leaf x).failure = none →
    Spliced (t.startOffset leaf) (t.textLength leaf) x t.toText
      (t.replaceText leaf x).tree.toText
  /-- A move is a cut, and an insertion next to the anchor as it stands in
  the tree that was cut. -/
  moveAfter : ∀ n a, t.isAttached n = true → t.isAttached a = true →
    (t.moveAfter n a).failure = none →
    let u := (t.detach n).tree
    Spliced (t.startOffset n) (t.textLength n) "" t.toText u.toText ∧
      Spliced (u.startOffset a + u.textLength a) 0 (t.text n) u.toText
        (t.moveAfter n a).tree.toText ∧
      (t.moveAfter n a).tree.text n = t.text n
  moveBefore : ∀ n a, t.isAttached n = true → t.isAttached a = true →
    (t.moveBefore n a).failure = none →
    let u := (t.detach n).tree
    Spliced (t.startOffset n) (t.textLength n) "" t.toText u.toText ∧
      Spliced (u.startOffset a) 0 (t.text n) u.toText
        (t.moveBefore n a).tree.toText ∧
      (t.moveBefore n a).tree.text n = t.text n

/-- **Edits act on the text as splices,** in every tree that can come about.
Specification, §3. -/
theorem edits_splice (t : Tree) (ht : t.Reachable) : t.EditsSplice := by
  have h : t.Sound := ht.consistent.sound
  exact {
    detach := fun _ hn hok => ⟨spliced_detach h hn hok, text_detach h hok⟩
    insertBefore := fun _ _ ha hok => spliced_insertBefore h ha hok
    insertAfter := fun _ _ ha hok => spliced_insertAfter h ha hok
    insertChild := fun _ _ _ hp hok =>
      ⟨spliced_insertChild h hp hok, text_congr (subtree_insertChild h hok)⟩
    replace := fun _ _ hold hok => spliced_replace h hold hok
    replaceText := fun _ _ hn hok => spliced_replaceText h hn hok
    moveAfter := fun _ _ hn ha hok => spliced_moveAfter h hn ha hok
    moveBefore := fun _ _ hn ha hok => spliced_moveBefore h hn ha hok }

/-- Moving `é` behind `b`, which starts two bytes earlier once `é` is cut
off. -/
theorem edits_splice_move :
    let t :=
      build .file [.token .identifier "é", .token .identifier "a",
        .token .identifier "b"]
    let u := (t.detach 1).tree
    t.startOffset 3 = 3 ∧ u.startOffset 3 = 1 ∧
      (t.moveAfter 1 3).tree.toText = "abé" ∧
      Spliced 0 2 "" "éab" "ab" ∧ Spliced 2 0 "é" "ab" "abé" := by
  intro t u
  obtain ⟨hcut, hput, -⟩ := (edits_splice t ⟨.file, _, [], rfl⟩).moveAfter 1 3
    (by decide) (by decide) (by decide)
  exact ⟨by decide, by decide, by decide, hcut, hput⟩

end Tree

end TreeLint
