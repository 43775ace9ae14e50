import TreeLint.Proofs.Standard.Corrections

/-!
# Code stays in order

Formatting with the standard rules leaves the tokens of code exactly as they
are, in their order. White space comes and goes, and operators are moved,
but only past tokens that are not code: each move is a `Hop` of a tree over
white space and comments.

Comments are neither lost nor changed. They keep their order as well, except
for those which stand inside an operator that is moved, and go with it: an
operator may hop over other comments. `formatting_keeps_code_order` has all
of this, and `comments_swapped` a file in which two comments change places.

White space and comments are tokens throughout, as they are in every file
that is parsed.

Specification, §13: the rules move operators and edit white space.
-/

namespace TreeLint

namespace Tree

/-- The tokens of code of the file, in order. -/
def code (t : Tree) : List Token :=
  t.document.tokens.filter fun tok => !tok.kind.isTrivia

/-- The comments of the file, in order. -/
def comments (t : Tree) : List Token :=
  t.document.tokens.filter fun tok => tok.kind.isComment

end Tree

namespace Standard

open TreeLint.Tree (Spaced)

/-- The kinds of nodes that are moved. -/
def isMovable (k : Kind) : Bool :=
  k == .operationReference || k == .dot || k ==
    .safeAccess || ChainWrapping.closesLine k

/-! ## Rearranged documents -/

/-- The code of `f`, with the same comments. -/
structure Rearranged (f g : Forest) : Prop where
  atomic : g.Atomic Kind.isTrivia
  code : (g.tokens.filter fun tok => !tok.kind.isTrivia) = f.tokens.filter
    fun tok => !tok.kind.isTrivia
  comments : (g.tokens.filter fun tok => tok.kind.isComment).Perm
    (f.tokens.filter fun tok => tok.kind.isComment)
  /-- Comments that do not stand inside an operator do not move. -/
  settled : g.pick Kind.isComment isMovable = f.pick Kind.isComment isMovable

variable {f g h : Forest} {x : String}

theorem Rearranged.refl (hf : f.Atomic Kind.isTrivia) : Rearranged f f :=
  ⟨hf, rfl, .refl _, rfl⟩

theorem Rearranged.trans (hfg : Rearranged f g) (hgh : Rearranged g h) :
    Rearranged f h where
  atomic := hgh.atomic
  code := hgh.code.trans hfg.code
  comments := hgh.comments.trans hfg.comments
  settled := hgh.settled.trans hfg.settled

/-- Changes of white space rearrange nothing else. -/
theorem rearranged_of_spaced (hs : Spaced x f g) (hf : f.ids.Nodup)
    (ha : f.Atomic Kind.isTrivia) : Rearranged f g where
  atomic := hs.atomic hf ha
  code := by
    rw [← Forest.pick_never (fun k => !k.isTrivia),
      ← Forest.pick_never (fun k => !k.isTrivia)]
    exact hs.pick_eq hf ha rfl
  comments := by
    rw [← Forest.pick_never Kind.isComment, ← Forest.pick_never Kind.isComment,
      hs.pick_eq hf ha rfl]
  settled := hs.pick_eq hf ha rfl

/-! ## Hops -/

/-- Two neighbouring parts of a list change places. -/
def Swapped (xs ys l l' : List Token) : Prop :=
  ∃ front back, l = front ++ xs ++ ys ++ back ∧ l' = front ++ ys ++ xs ++ back

namespace Swapped

variable {xs ys l l' : List Token}

theorem perm (h : Swapped xs ys l l') : l'.Perm l := by
  obtain ⟨front, back, rfl, rfl⟩ := h
  refine List.Perm.append_right back ?_
  rw [List.append_assoc, List.append_assoc]
  exact List.Perm.append_left front List.perm_append_comm

/-- If one of two parts has nothing to pick, their change of places does not
show. -/
theorem filter_eq {keep : Token → Bool} (h : Swapped xs ys l l')
    (hnone : (∀ tok ∈ xs, keep tok = false) ∨ ∀ tok ∈ ys, keep tok = false) :
    l'.filter keep = l.filter keep := by
  obtain ⟨front, back, rfl, rfl⟩ := h
  rcases hnone with hxs | hys
  · have hnil : xs.filter keep =
        [] := by simpa [List.filter_eq_nil_iff] using hxs
    simp [hnil]
  · have hnil : ys.filter keep =
        [] := by simpa [List.filter_eq_nil_iff] using hys
    simp [hnil]

end Swapped

/-- An operator is moved past white space and comments. -/
inductive Hop (f : Forest) : Forest → Prop
  | intro {n p : NodeId} {i : Nat} {s : Forest} {k : Kind} {gap : List Token}
      (hs : f.subtree? n = some s) (hk : s.rootKind? = some k)
      (hmove : isMovable k = true)
      (hgap : ∀ tok ∈ gap, tok.kind.isTrivia = true)
      (hswap : Swapped s.tokens gap f.tokens
        (Forest.insertUnder p i s (f.remove n)).tokens ∨
        Swapped gap s.tokens f.tokens
        (Forest.insertUnder p i s (f.remove n)).tokens) :
      Hop f (Forest.insertUnder p i s (f.remove n))

/-- **A hop rearranges:** code stays in order, since what is hopped over has
none. -/
theorem Hop.rearranged (hop : Hop f g) (hf : f.ids.Nodup)
    (ha : f.Atomic Kind.isTrivia) : Rearranged f g := by
  obtain @⟨n, p, i, s, k, gap, hs, hk, hmove, hgap, hswap⟩ := hop
  have hpick : s.pick Kind.isComment isMovable = [] := by
    rcases Forest.eq_of_roots_eq_singleton (Forest.roots_subtree? hs) with ⟨k',
      y, rfl⟩ | ⟨k', c, rfl⟩
    · cases hk
      have hcomment : k.isComment = false := by
        revert hmove
        cases k <;> decide
      simp [Forest.pick, hcomment]
    · cases hk
      simp [Forest.pick, hmove]
  have hcode : ∀ tok ∈ gap, (!tok.kind.isTrivia) = false := fun tok htok => by
    simp [hgap tok htok]
  refine ⟨(ha.remove hf hs).insertUnder (ha.subtree hf hs) p i, ?_, ?_, ?_⟩
  · rcases hswap with hswap | hswap
    · exact hswap.filter_eq (Or.inr hcode)
    · exact hswap.filter_eq (Or.inl hcode)
  · rcases hswap with hswap | hswap
    · exact hswap.perm.filter _
    · exact hswap.perm.filter _
  · rw [Forest.pick_insertUnder hpick, Forest.pick_remove hf hs hpick]

/-! ## Moves of the rules -/

section Moves

variable {t : Tree} {n newline : NodeId}

theorem exists_last {l : List Token} {m : NodeId}
    (h : l.reverse.head?.map Token.id = some m) :
    ∃ front tok, l = front ++ [tok] ∧ tok.id = m := by
  rw [List.head?_reverse] at h
  obtain ⟨tok, htok, hid⟩ := Option.map_eq_some_iff.mp h
  obtain ⟨front, rfl⟩ := List.getLast?_eq_some_iff.mp htok
  exact ⟨front, tok, rfl, hid⟩

/-- The first token of code among some of the document has only white space
and comments before it. -/
theorem exists_first_code (h : t.Sound) (ha : t.document.Atomic Kind.isTrivia)
    {l : List Token} (hl : l ⊆ t.document.tokens) {m : NodeId}
    (hm : (l.find? t.isCodeToken).map Token.id = some m) :
    ∃ gap tok back, l = gap ++ tok :: back ∧ tok.id = m ∧
      (∀ tok' ∈ gap, tok'.kind.isTrivia = true) ∧
      tok.kind.isTrivia = false := by
  obtain ⟨tok, htok, hid⟩ := Option.map_eq_some_iff.mp hm
  obtain ⟨hfound, gap, back, rfl, hgap⟩ := List.find?_eq_some_iff_append.mp htok
  refine ⟨gap, tok, back, rfl, hid, fun tok' htok' => ?_, ?_⟩
  · have hcode := hgap tok' htok'
    rw [h.isCodeToken_eq ha (hl (List.mem_append_left _ htok'))] at hcode
    simpa using hcode
  · rw [h.isCodeToken_eq ha (hl (by simp))] at hfound
    simpa using hfound

theorem kind_of_kindIs {test : Kind → Bool} (hk : t.kindIs n test = true) :
    ∃ k, (t.subtree n).rootKind? = some k ∧ test k = true := by
  rw [Tree.kindIs, Tree.kind?] at hk
  cases hkind : (t.subtree n).rootKind? with
  | none => simp [hkind] at hk
  | some k => exact ⟨k, rfl, by simpa [hkind] using hk⟩

/-- Some tokens `s` are taken out and put behind `z`, the last token before
`back`. -/
theorem append_behind_last {pre s gap back front front' back' : List Token}
    {z : Token} (hnodup : ((pre ++ s ++ gap ++ back).map Token.id).Nodup)
    (hlast : pre ++ s ++ gap = front ++ [z])
    (hrest : pre ++ (gap ++ back) = front' ++ z :: back') :
    front' ++ z :: s ++ back' = pre ++ gap ++ s ++ back := by
  rcases List.eq_nil_or_concat' gap with rfl | ⟨gap, z', rfl⟩
  · rw [List.append_nil] at hlast hnodup
    rw [List.nil_append] at hrest
    rcases List.eq_nil_or_concat' s with rfl | ⟨s, z', rfl⟩
    · simpa using hrest.symm
    · -- the last token is one of those taken out, so it is not among the rest
      rw [← List.append_assoc] at hlast hnodup
      obtain rfl : z' = z := by simpa using (List.append_inj' hlast rfl).2
      have hall : (pre ++ s ++ [z'] ++ back).Nodup := hnodup.of_map
      have hz : z' ∈ pre ++ back :=
        hrest ▸ List.mem_append_right _ List.mem_cons_self
      rcases List.mem_append.mp hz with hz | hz
      · exact absurd (List.mem_singleton_self z')
          (List.disjoint_of_nodup_append hall.of_append_left
            (List.mem_append_left _ hz))
      · exact absurd hz (List.disjoint_of_nodup_append hall (by simp))
  · rw [← List.append_assoc] at hlast
    obtain rfl : z' = z := by simpa using (List.append_inj' hlast rfl).2
    have hsub : (pre ++ (gap ++ [z'] ++ back)).Sublist
        (pre ++ s ++ (gap ++ [z']) ++ back) := by
      rw [List.append_assoc (pre ++ s), List.append_assoc pre s]
      exact (List.sublist_append_right s _).append_left pre
    have heq : pre ++ (gap ++ [z'] ++ back) =
        (pre ++ gap) ++ z' :: back := by simp
    obtain ⟨rfl, rfl⟩ := Forest.cut_unique
      (hnodup.sublist (hsub.map Token.id)) hrest heq
    simp

/-- A call operator comes to stand right before the next token of code,
behind the line break `newline`, which is the last token in between. -/
theorem tokens_openLine (h : t.Sound) (ha : t.document.Atomic Kind.isTrivia)
    (hn : n ∈ t.document.ids)
    (hbreak : ChainWrapping.breakAfter? t n = some newline)
    (hok : (t.moveAfter n newline).failure = none) :
    ∃ p i pre gap tok back front z,
      (t.moveAfter n newline).tree.document = Forest.insertUnder p i
        (t.subtree n) (t.document.remove n) ∧
      t.document.tokens = pre ++ (t.subtree n).tokens ++ gap ++ tok :: back ∧
      (t.moveAfter n newline).tree.document.tokens = pre ++ gap ++
        (t.subtree n).tokens ++ tok :: back ∧
      (∀ tok ∈ gap, tok.kind.isTrivia = true) ∧ tok.kind.isTrivia = false ∧
      pre ++ (t.subtree n).tokens ++ gap = front ++ [z] ∧ z.id = newline := by
  obtain ⟨pre, post, har⟩ := h.around hn
  have htokens := har.tokens_eq
  have hnodup := Forest.nodup_tokens h.nodup_document
  -- the next token of code
  obtain ⟨hbind, -⟩ := Option.filter_eq_some_iff.mp hbreak
  obtain ⟨c, hc, hprev⟩ := Option.bind_eq_some_iff.mp hbind
  rw [Tree.nextCodeLeaf?, (h.tokens_of_around har).2] at hc
  obtain ⟨gap, tok, back, rfl, rfl, hgap, hcode⟩ :=
    exists_first_code h ha (by rw [htokens]; exact List.subset_append_right _ _)
      hc
  -- the token before it
  have hsplit : t.document.tokens = pre ++ (t.subtree n).tokens ++ gap ++
      tok :: back := by
    rw [htokens, List.append_assoc _ gap]
  rw [Tree.prevLeaf?, (h.tokens_of_around (h.around_of_tokens hsplit)).1]
    at hprev
  obtain ⟨front, z, hlast, rfl⟩ := exists_last hprev
  have hz : z ∈ t.document.tokens := by
    rw [hsplit, hlast]
    simp
  obtain ⟨p, i, front', back', hdoc, hrest, hnew⟩ :=
    Tree.tokens_moveAfter h hz hok
  rw [har.tokens_remove h.nodup_document] at hrest
  rw [hsplit] at hnodup
  rw [append_behind_last hnodup hlast hrest] at hnew
  exact ⟨p, i, pre, gap, tok, back, front, z, hdoc, hsplit, hnew, hgap,
    hcode, hlast, rfl⟩

/-- An operator that opens a line hops over the white space and comments up
to the line break. -/
theorem hop_openLine (h : t.Sound) (ha : t.document.Atomic Kind.isTrivia)
    (hn : n ∈ t.document.ids) (hk : t.kindIs n isMovable = true)
    (hbreak : ChainWrapping.breakAfter? t n = some newline)
    (hok : (t.moveAfter n newline).failure = none) :
    Hop t.document (t.moveAfter n newline).tree.document := by
  obtain ⟨k, hkind, hmove⟩ := kind_of_kindIs hk
  obtain ⟨p, i, pre, gap, tok, back, -, -, hdoc, hsplit, hnew, hgap, -, -, -⟩ :=
    tokens_openLine h ha hn hbreak hok
  rw [hdoc] at hnew ⊢
  exact .intro (h.subtree?_document hn) hkind hmove hgap
    (Or.inl ⟨pre, tok :: back, hsplit, hnew⟩)

/-- A bare operator comes to stand right behind the code before the line
break in front of it. -/
theorem tokens_moveOperator (h : t.Sound) (ha : t.document.Atomic Kind.isTrivia)
    (hn : n ∈ t.document.ids) (hprev : t.prevLeaf? n = some newline)
    (hspace : t.hasKind newline .whitespace = true) {insertion : NodeId}
    (hcode : t.prevCodeLeaf? newline = some insertion)
    (hok : (t.moveAfter n insertion).failure = none) :
    ∃ p i front tok gap post,
      (t.moveAfter n insertion).tree.document = Forest.insertUnder p i
        (t.subtree n) (t.document.remove n) ∧
      t.document.tokens = front ++ [tok] ++ gap ++
        (t.subtree n).tokens ++ post ∧
      (t.moveAfter n insertion).tree.document.tokens = front ++ [tok] ++
        (t.subtree n).tokens ++ gap ++ post ∧
      (∀ tok ∈ gap, tok.kind.isTrivia = true) ∧ tok.kind.isTrivia = false ∧
        tok.id = insertion := by
  obtain ⟨pre, post, har⟩ := h.around hn
  have htokens := har.tokens_eq
  -- the line break is the last token before the operator
  rw [Tree.prevLeaf?, (h.tokens_of_around har).1] at hprev
  obtain ⟨pre, br, rfl, rfl⟩ := exists_last hprev
  have hsplit : t.document.tokens =
      pre ++ br :: ((t.subtree n).tokens ++ post) := by simp [htokens]
  have hbr : br.kind.isTrivia = true := by
    have hmem : br ∈ t.document.tokens := by simp [hsplit]
    rw [(h.hasKind_token hmem).mp hspace]
    rfl
  -- and the code before it is found from there
  rw [Tree.prevCodeLeaf?, (h.tokens_of_around (h.around_of_tokens hsplit)).1]
    at hcode
  obtain ⟨gap, tok, back, hpre, rfl, hgap, htok⟩ :=
    exists_first_code h ha
      (fun x hx => by simp [hsplit, List.mem_reverse.mp hx]) hcode
  have hpre' : pre = back.reverse ++ tok :: gap.reverse := by
    rw [← List.reverse_reverse pre, hpre]
    simp
  have hmem : tok ∈ t.document.tokens := by simp [hsplit, hpre']
  obtain ⟨p, i, front, rear, hdoc, hrest, hnew⟩ :=
    Tree.tokens_moveAfter h hmem hok
  have hnodup : ((t.document.remove n).tokens.map Token.id).Nodup :=
    Forest.nodup_tokens (Forest.nodup_remove h.nodup_document
      (h.subtree?_document hn)).2.1
  have hrest' : (t.document.remove n).tokens =
      back.reverse ++ tok :: (gap.reverse ++ [br] ++ post) := by
    rw [har.tokens_remove h.nodup_document, hpre']
    simp
  obtain ⟨rfl, rfl⟩ := Forest.cut_unique hnodup hrest hrest'
  refine ⟨p, i, back.reverse, tok, gap.reverse ++ [br], post, hdoc,
    ?_, by simp [hnew], ?_, htok, rfl⟩
  · simp [htokens, hpre']
  · simp only [List.mem_append, List.mem_reverse, List.mem_singleton]
    rintro tok (htok | rfl)
    · exact hgap tok htok
    · exact hbr

/-- A bare operator hops over what separates it from the code on the line
before. -/
theorem hop_moveOperator (h : t.Sound) (ha : t.document.Atomic Kind.isTrivia)
    (hn : n ∈ t.document.ids) (hk : t.kindIs n isMovable = true)
    (hprev : t.prevLeaf? n = some newline)
    (hspace : t.hasKind newline .whitespace = true) {insertion : NodeId}
    (hcode : t.prevCodeLeaf? newline = some insertion)
    (hok : (t.moveAfter n insertion).failure = none) :
    Hop t.document (t.moveAfter n insertion).tree.document := by
  obtain ⟨k, hkind, hmove⟩ := kind_of_kindIs hk
  obtain ⟨p, i, front, tok, gap, post, hdoc, hsplit, hnew, hgap, -, -⟩ :=
    tokens_moveOperator h ha hn hprev hspace hcode hok
  rw [hdoc] at hnew ⊢
  exact .intro (h.subtree?_document hn) hkind hmove hgap
    (Or.inr ⟨front ++ [tok], post, hsplit, hnew⟩)

/-- From the code before a node among its siblings on there are white space
and comments, and the anchor of a move is the first of them. -/
theorem siblings_of_anchor (h : t.Sound) {anchor : NodeId}
    (hanchor : ((t.prevCodeSibling? n).bind t.nextSibling?).filter (· != n) =
      some anchor) :
    ∃ p far near back, t.parent? n = some p ∧
      t.children p = far ++ (anchor :: near ++ n :: back) ∧
      ∀ m ∈ anchor :: near, t.kindIs m Kind.isTrivia = true := by
  obtain ⟨hbind, hne⟩ := Option.filter_eq_some_iff.mp hanchor
  obtain ⟨prev, hprev, hnext⟩ := Option.bind_eq_some_iff.mp hbind
  cases hp : t.parent? n with
  | none =>
    simp [Tree.prevCodeSibling?, Tree.siblingsBefore, Tree.siblings,
      hp] at hprev
  | some p =>
    obtain ⟨before, back, hkids⟩ :=
      List.append_of_mem (h.parent?_eq_some_iff.mp hp)
    rw [Tree.prevCodeSibling?, (h.siblings_of_children hkids).1] at hprev
    obtain ⟨-, near, far, hsplit, hnear⟩ :=
      List.find?_eq_some_iff_append.mp hprev
    have hbefore : before = far.reverse ++ prev :: near.reverse := by
      rw [← List.reverse_reverse before, hsplit]
      simp
    have hkids' : t.children p =
        far.reverse ++ prev :: (near.reverse ++ n :: back) := by
      rw [hkids, hbefore]
      simp
    rw [Tree.nextSibling?, (h.siblings_of_children hkids').2] at hnext
    cases hr : near.reverse with
    | nil =>
      rw [hr] at hnext
      simp [Option.some.inj hnext] at hne
    | cons a near' =>
      rw [hr] at hnext hkids'
      obtain rfl : a = anchor := Option.some.inj hnext
      refine ⟨p, far.reverse ++ [prev], near', back, rfl, by simp [hkids'],
        fun m hm => ?_⟩
      have hm' : m ∈ near := List.mem_reverse.mp (hr ▸ hm)
      simpa using hnear m hm'

/-- The operator of a binary expression comes to stand before the white
space and comments that separate it from the code before it. -/
theorem tokens_moveOperation (h : t.Sound)
    (ha : t.document.Atomic Kind.isTrivia) (hn : n ∈ t.document.ids)
    {anchor : NodeId}
    (hanchor : ((t.prevCodeSibling? n).bind t.nextSibling?).filter (· != n) =
      some anchor)
    (hok : (t.moveBefore n anchor).failure = none) :
    ∃ p i front gap post,
      (t.moveBefore n anchor).tree.document = Forest.insertUnder p i
        (t.subtree n) (t.document.remove n) ∧
      Forest.Around n t.document (front ++ gap) (t.subtree n) post ∧
      (t.moveBefore n anchor).tree.document.tokens = front ++
        (t.subtree n).tokens ++ gap ++ post ∧
      (∀ tok ∈ gap, tok.kind.isTrivia = true) ∧ gap ≠ [] := by
  obtain ⟨p, far, near, back, hp, hkids, htrivia⟩ :=
    siblings_of_anchor h hanchor
  obtain ⟨pre, post, har⟩ := h.around hn
  have hnodup := h.nodup_document
  have hpmem := (h.parent_mem_document_iff hp).mpr hn
  have hroots : (t.document.offspring p).roots =
      far ++ (anchor :: near ++ n :: back) := by
    rw [h.offspring_document hpmem, hkids]
  -- the siblings in between are tokens
  have hleaf : ∀ m ∈ anchor :: near, ∃ k y, t.document.subtree? m =
      some (.token m k y .nil) := by
    intro m hm
    have hmroots : m ∈ (t.document.offspring p).roots := by
      rw [hroots]
      exact List.mem_append_right _ (List.mem_append_left _ hm)
    have hmem := Forest.ids_offspring_subset p _
      (Forest.mem_ids_of_mem_roots hmroots)
    obtain ⟨k, hkind, htest⟩ := kind_of_kindIs (htrivia m hm)
    obtain ⟨y, hy⟩ := ha.eq_token hnodup (h.subtree?_document hmem) hkind htest
    exact ⟨k, y, by rw [h.subtree?_document hmem, hy]⟩
  obtain ⟨above, gap, rfl, hids⟩ := har.pre_of_siblings hnodup hroots hleaf
  have htokens := har.tokens_eq
  have hgap : ∀ tok ∈ gap, tok.kind.isTrivia = true := by
    intro tok htok
    have hmem : tok ∈ t.document.tokens := by simp [htokens, htok]
    have hkind := (h.of_mem_tokens hmem).2.1
    have htest :=
      htrivia tok.id (hids ▸ List.mem_map_of_mem (f := Token.id) htok)
    rwa [Tree.kindIs, hkind, Option.any_some] at htest
  obtain ⟨z, gap, rfl, rfl, -⟩ := List.map_eq_cons_iff.mp hids
  have hz : z ∈ t.document.tokens := by simp [htokens]
  obtain ⟨q, i, front, rear, hdoc, hrest, hnew⟩ :=
    Tree.tokens_moveBefore h hz hok
  have hrest' : (t.document.remove n).tokens = above ++ z :: (gap ++ post) := by
    rw [har.tokens_remove hnodup]
    simp
  have hnodup' := Forest.nodup_tokens
    (Forest.nodup_remove hnodup (h.subtree?_document hn)).2.1
  obtain ⟨rfl, rfl⟩ := Forest.cut_unique hnodup' hrest hrest'
  exact ⟨q, i, front, z :: gap, post, hdoc, har, by simp [hnew], hgap, by simp⟩

/-- The operator of a binary expression hops over what separates it from the
code before it. -/
theorem hop_moveOperation (h : t.Sound) (ha : t.document.Atomic Kind.isTrivia)
    (hn : n ∈ t.document.ids) (hk : t.kindIs n isMovable = true)
    {anchor : NodeId}
    (hanchor : ((t.prevCodeSibling? n).bind t.nextSibling?).filter (· != n) =
      some anchor)
    (hok : (t.moveBefore n anchor).failure = none) :
    Hop t.document (t.moveBefore n anchor).tree.document := by
  obtain ⟨k, hkind, hmove⟩ := kind_of_kindIs hk
  obtain ⟨p, i, front, gap, post, hdoc, har, hnew, hgap, -⟩ :=
    tokens_moveOperation h ha hn hanchor hok
  rw [hdoc] at hnew ⊢
  exact .intro (h.subtree?_document hn) hkind hmove hgap
    (Or.inr ⟨front, post, har.tokens_eq, hnew⟩)

end Moves

/-! ## Corrections

Each of the six corrections keeps code and comments, one lemma for each edit
it is made of. -/

/-- What corrections keep: white space and comments are tokens, and then
code and comments stay. -/
def Keeps (f g : Forest) : Prop := f.Atomic Kind.isTrivia → Rearranged f g

section Corrections

variable {t u : Tree} {n : NodeId} {ops : List Op} {message : String}

theorem Keeps.refl (f : Forest) : Keeps f f := Rearranged.refl

theorem Keeps.trans (hfg : Keeps f g) (hgh : Keeps g h) : Keeps f h :=
  fun hf => (hfg hf).trans (hgh (hfg hf).atomic)

theorem keeps_of_spaced (ht : t.Sound) (hs : Spaced x t.document u.document) :
    Keeps t.document u.document :=
  rearranged_of_spaced hs ht.nodup_document

theorem keeps_spaceBefore {y : String} (ht : t.Consistent)
    (h : Op.Succeed [.spaceBefore n y] t u) :
    Keeps t.document u.document := by
  rw [h.eq_run]
  exact keeps_of_spaced ht.sound (Tree.spaced_spaceBefore ht.sound n y)

theorem keeps_spaceAfter {y : String} (ht : t.Consistent)
    (h : Op.Succeed [.spaceAfter n y] t u) :
    Keeps t.document u.document := by
  rw [h.eq_run]
  exact keeps_of_spaced ht.sound (Tree.spaced_spaceAfter ht.sound n y)

theorem keeps_detach (ht : t.Consistent) (hk : t.hasKind n .whitespace = true)
    (h : Op.Succeed [.detach n] t u) : Keeps t.document u.document := by
  rw [h.eq_run]
  exact keeps_of_spaced ht.sound (Tree.spaced_detach ht.sound hk)

/-- A binary operation that goes to the line before, as one tree. -/
theorem keeps_moveOperation (ht : t.Consistent) (hn : n ∈ t.document.ids)
    (hk : t.hasKind n .operationReference = true)
    (h : Op.Succeed (ChainWrapping.moveOperation t n) t u) :
    Keeps t.document u.document := by
  obtain ⟨v, hmove, hspace⟩ := h.append
  refine Keeps.trans (g := v.document) (fun ha => ?_)
    (keeps_spaceBefore (hmove.consistent ht) hspace)
  cases hanchor : ((t.prevCodeSibling? n).bind t.nextSibling?).filter
      (· != n) with
  | none =>
    rw [hanchor] at hmove
    cases hmove
    exact Rearranged.refl ha
  | some anchor =>
    rw [hanchor] at hmove
    obtain _ | ⟨hok, ⟨⟩⟩ := hmove
    have hmovable : t.kindIs n isMovable = true := by
      simp [Tree.kindIs, beq_iff_eq.mp hk, isMovable]
    exact (hop_moveOperation ht.sound ha hn hmovable hanchor
      (Edited.failure_eq_none hok)).rearranged
      ht.sound.nodup_document ha

theorem kindIs_mono {p q : Kind → Bool} (hk : t.kindIs n p = true)
    (h : ∀ k, p k = true → q k = true) :
    t.kindIs n q = true := by
  obtain ⟨k, hkind, hp⟩ := kind_of_kindIs hk
  rw [Tree.kindIs, Tree.kind?, hkind, Option.any_some]
  exact h k hp

/-- An operator on its own that goes there. -/
theorem keeps_moveOperator {newline : NodeId} (ht : t.Consistent)
    (hn : n ∈ t.document.ids) (hk : t.kindIs n ChainWrapping.closesLine = true)
    (hprev : t.prevLeaf? n = some newline)
    (hspace : t.hasKind newline .whitespace = true)
    (h : Op.Succeed (ChainWrapping.moveOperator t n newline) t u) :
    Keeps t.document u.document := by
  unfold ChainWrapping.moveOperator at h
  split at h
  · next insertion hcode =>
    obtain _ | ⟨hok, hrest⟩ := h
    have hmovable := kindIs_mono (q := isMovable) hk fun k hk => by
      simp [isMovable, hk]
    refine Keeps.trans (fun ha => ?_) (keeps_spaceAfter (ht.apply _) hrest)
    exact (hop_moveOperator ht.sound ha hn hmovable hprev hspace hcode
      (Edited.failure_eq_none hok)).rearranged
      ht.sound.nodup_document ha
  · cases h
    exact Keeps.refl _

theorem breakBefore?_eq_some {newline : NodeId}
    (h : ChainWrapping.breakBefore? t n = some newline) :
    t.prevLeaf? n = some newline ∧ t.hasKind newline .whitespace = true := by
  unfold ChainWrapping.breakBefore? at h
  split at h
  · cases h
  · obtain ⟨hprev, hbreak⟩ := Option.filter_eq_some_iff.mp h
    exact ⟨hprev, (Bool.and_eq_true_iff.mp hbreak).1⟩

/-- What becomes obsolete is white space. -/
theorem hasKind_obsolete {newline space : NodeId}
    (hspace : t.hasKind newline .whitespace = true)
    (h : ChainWrapping.obsolete? t n newline = some space) :
    t.hasKind space .whitespace = true := by
  unfold ChainWrapping.obsolete? at h
  split at h
  · cases h
  · split_ifs at h with hbreak hinline
    · cases h
      exact hspace
    · cases h
      exact (Bool.and_eq_true_iff.mp hinline).1

/-- **An operator taken to the end of the line before keeps code in order.**
-/
theorem keeps_closeLine {newline : NodeId} (ht : t.Consistent)
    (hn : n ∈ t.document.ids) (hk : t.kindIs n ChainWrapping.closesLine = true)
    (hbreak : ChainWrapping.breakBefore? t n = some newline)
    (h : Op.Succeed (ChainWrapping.closeLine t n newline) t u) :
    Keeps t.document u.document := by
  obtain ⟨hprev, hspace⟩ := breakBefore?_eq_some hbreak
  obtain ⟨v, hmove, hdetach⟩ := h.append
  refine Keeps.trans (g := v.document) ?_ ?_
  · split at hmove
    · next operation hop =>
      obtain ⟨hparent, hkind⟩ := Option.filter_eq_some_iff.mp hop
      exact keeps_moveOperation ht
        ((ht.sound.parent_mem_document_iff hparent).mpr hn) hkind hmove
    · exact keeps_moveOperator ht hn hk hprev hspace hmove
  · cases hobsolete : ChainWrapping.obsolete? t n newline with
    | none =>
      rw [hobsolete] at hdetach
      cases hdetach
      exact Keeps.refl _
    | some space =>
      rw [hobsolete] at hdetach
      -- white space is still white space after the move
      have hkind := (hmove.keepsKinds ht).hasKind ht.sound
        (hmove.consistent ht).sound
        (hasKind_obsolete hspace hobsolete)
      exact keeps_detach (hmove.consistent ht) hkind hdetach

/-- **So does one taken to the start of the next line.** -/
theorem keeps_openLine {indentation : Indentation} {newline : NodeId}
    (ht : t.Consistent) (hn : n ∈ t.document.ids)
    (hk : t.kindIs n ChainWrapping.opensLine = true)
    (hbreak : ChainWrapping.breakAfter? t n = some newline)
    (h : Op.Succeed (ChainWrapping.openLine indentation t n newline) t u) :
    Keeps t.document u.document := by
  unfold ChainWrapping.openLine at h
  split at h
  · obtain _ | ⟨hok, hafter⟩ := h
    exact (keeps_spaceBefore ht (.cons hok (.nil _))).trans
      (keeps_spaceAfter (ht.apply _) hafter)
  · next helvis =>
    obtain _ | ⟨hok, ⟨⟩⟩ := h
    intro ha
    have hmovable : t.kindIs n isMovable = true := by
      obtain ⟨k, hkind, hopens⟩ := kind_of_kindIs hk
      have hne : k ≠ .elvis := by
        rintro rfl
        exact helvis (beq_iff_eq.mpr hkind)
      rw [Tree.kindIs, Tree.kind?, hkind, Option.any_some]
      revert hopens hne
      cases k <;> decide
    exact (hop_openLine ht.sound ha hn hmovable hbreak
      (Edited.failure_eq_none hok)).rearranged
      ht.sound.nodup_document ha

/-- **Every correction** keeps code and comments. -/
theorem keeps_of_correction (ht : t.Consistent) (c : Correction t message ops)
    (h : Op.Succeed ops t u) :
    Keeps t.document u.document := by
  cases c with
  | blankLine => exact keeps_spaceBefore ht h
  | opens indentation hn _ hk hbreak =>
    exact keeps_openLine ht (ht.sound.mem_document_iff.mpr hn) hk hbreak h
  | closes hn _ hk hbreak =>
    exact keeps_closeLine ht (ht.sound.mem_document_iff.mpr hn) hk hbreak h
  | removed hk => exact keeps_detach ht hk h
  | single hk =>
    rw [h.eq_run]
    exact keeps_of_spaced ht.sound (Tree.spaced_replaceText ht.sound hk " ")
  | missing => exact keeps_spaceAfter ht h

end Corrections

/-! ## Formatting -/

theorem upkeep_keeps {σ : Type} :
    Upkeep (Corrects (σ := σ)) (fun _ => True) (OnDocuments Keeps) :=
  upkeep_onDocuments Keeps.refl Keeps.trans fun ht c _ h =>
    keeps_of_correction ht c h

end Standard

/-- The comments of the file that do not stand inside an operator. -/
def Tree.settledComments (t : Tree) : List Token :=
  t.document.pick Kind.isComment Standard.isMovable

/-- **Code stays in order.** Let white space and comments be tokens. However
the standard rules are configured, whatever may be corrected and however
formatting ends, every token of code is where it was among the code, with
the text it had. Every comment is still there, with the text it had, and the
comments that do not stand inside an operator are in the order they had: if
there are no others, that is all of them. Specification, §13. -/
theorem formatting_keeps_code_order {σ : Type} [Inhabited σ] (w w' : Session σ)
    (fuel : Nat) (policy : Policy) (s : Settings)
    (r : Except EngineError Formatted)
    (hreg : Registry.ofProviders w.engine.registry.id Standard.providers =
      .ok w.engine.registry)
    (ht : w.tree.Reachable) (ha : w.tree.document.Atomic Kind.isTrivia)
    (h : w.format fuel policy s = some (w', r)) :
    w'.tree.code = w.tree.code ∧ w'.tree.comments.Perm w.tree.comments ∧
      w'.tree.settledComments = w.tree.settledComments ∧
      (w.tree.settledComments = w.tree.comments →
        w'.tree.comments = w.tree.comments) := by
  have hkept := Standard.upheld_format Standard.upkeep_keeps hreg ht h
    (Or.inl fun _ => trivial) ha
  refine ⟨hkept.code, hkept.comments, hkept.settled, fun hall => ?_⟩
  -- none of the comments is inside an operator afterwards either, since
  -- there are as many as before
  have hsub : w'.tree.settledComments.Sublist w'.tree.comments := by
    rw [Tree.comments, ← Forest.pick_never]
    exact Forest.pick_sublist _ _ _
  have hsettled : w'.tree.settledComments = w.tree.comments :=
    hkept.settled.trans hall
  rw [hsettled] at hsub
  exact (hsub.eq_of_length hkept.comments.length_eq.symm).symm

/-- In the file `a /*x*/⏎+/*y*/ b`, where the second comment stands inside
the operator. -/
theorem comments_swapped :
    let t := Tree.build .file
      [.start .binaryExpr, .token .identifier "a", .token .whitespace " ",
        .token .blockComment "/*x*/",
        .token .whitespace "\n", .start .operationReference, .token .plus "+",
          .token .blockComment "/*y*/",
        .finish, .token .whitespace " ", .token .identifier "b"]
    t.document.Atomic Kind.isTrivia ∧
      t.comments.map Token.text = ["/*x*/", "/*y*/"] ∧
      ((Session.standard t).format 20 Policy.all {}).map
        (fun p => (p.1.tree.toText, p.1.tree.comments.map Token.text)) =
        some ("a +/*y*/ /*x*/\n b", ["/*y*/", "/*x*/"]) := by
  decide +kernel

/-- In the same file with both comments outside of the operator, which hops
over one of them. -/
theorem formatting_keeps_code_order_past_comment :
    let t := Tree.build .file
      [.start .binaryExpr, .token .identifier "a", .token .whitespace " ",
        .token .blockComment "/*x*/",
        .token .whitespace "\n", .start .operationReference,
          .token .plus "+", .finish,
        .token .blockComment "/*y*/", .token .whitespace " ",
          .token .identifier "b"]
    ∃ w' r, (Session.standard t).format 20 Policy.all {} = some (w', r) ∧
      w'.tree.toText = "a + /*x*/\n/*y*/ b" ∧ w'.tree.code = t.code ∧
          w'.tree.comments = t.comments := by
  intro t
  have hreach : t.Reachable := ⟨_, _, [], rfl⟩
  have htext : ((Session.standard t).format 20 Policy.all {}).map
      (fun p => p.1.tree.toText) =
      some "a + /*x*/\n/*y*/ b" := by decide +kernel
  obtain ⟨⟨w', r⟩, h, htext⟩ := Option.map_eq_some_iff.mp htext
  have hkept := formatting_keeps_code_order (Session.standard t) w' 20
    Policy.all {} r
    (Session.ofProviders_standard t) hreach (by decide +kernel) h
  exact ⟨w', r, h, htext, hkept.1, hkept.2.2.2 (by decide +kernel)⟩

end TreeLint
