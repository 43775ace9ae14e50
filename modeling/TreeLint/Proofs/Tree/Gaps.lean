import TreeLint.Proofs.Tree.Neighbours

/-!
# White space in a gap

White space next to a node is put there in one of three ways: a token of
white space that is there gets another text, or is removed, or a new one
becomes a sibling of the node. The token may belong to any other node, with
nodes that have no tokens in between. On the list of tokens the three come
to the same: one gap of it is filled anew (`Gap.tokens_fillGap`). What the
edit does to the text, and to everything that is not white space, can be
read off there (`space_fills_gap`).

The standard rules edit white space in this way (specification, §13).
-/

namespace TreeLint

/-! ## Lists -/

section Lists

variable {α : Type}

theorem exists_append_getLast?_filter (l : List α) (test : α → Bool) :
    ∃ front, l = front ++ (l.getLast?.filter test).toList := by
  cases hlast : l.getLast? with
  | none => exact ⟨l, by simp⟩
  | some a =>
    obtain ⟨front, rfl⟩ := List.getLast?_eq_some_iff.mp hlast
    cases ha : test a with
    | true => exact ⟨front, by simp [Option.filter_some, ha]⟩
    | false => exact ⟨front ++ [a], by simp [Option.filter_some, ha]⟩

theorem exists_head?_filter_append (l : List α) (test : α → Bool) :
    ∃ back, l = (l.head?.filter test).toList ++ back := by
  cases l with
  | nil => exact ⟨[], rfl⟩
  | cons a back =>
    cases ha : test a with
    | true => exact ⟨back, by simp [Option.filter_some, ha]⟩
    | false => exact ⟨a :: back, by simp [Option.filter_some, ha]⟩

end Lists

/-- Which tokens stand behind a node is no matter of their texts. -/
theorem Forest.map_id_tokensAfter?_setText (n z : NodeId) (x : String)
    (f : Forest) :
    ((f.setText z x).tokensAfter? n).map (List.map Token.id) =
      (f.tokensAfter? n).map (List.map Token.id) := by
  induction f with
  | nil => rfl
  | token i k y r ih =>
    simp only [setText]
    split
    · rfl
    · simp only [tokensAfter?]
      split
      · simp
      · exact ih
  | node i k c r ihc ihr =>
    simp only [setText, tokensAfter?]
    split
    · simp
    · cases hc : c.tokensAfter? n with
      | none =>
        rw [hc, Option.map_none, Option.map_eq_none_iff] at ihc
        simpa only [ihc] using ihr
      | some after =>
        rw [hc, Option.map_some] at ihc
        obtain ⟨after', hc', hmap⟩ := Option.map_eq_some_iff.mp ihc
        simp [hc', hmap]

namespace Tree

variable {t : Tree} {n m z : NodeId} {x : String} {neighbour : Option NodeId}
  {space : Option Token} {pre post front back : List Token}
  {attach : Tree → NodeId → Edited}

/-! ## Gaps -/

/-- The tokens at a gap: those in front of it, the white space in it if
there is some, and those behind it. -/
structure Gap (t : Tree) (neighbour : Option NodeId) (front : List Token)
    (space : Option Token) (back : List Token) : Prop where
  tokens : t.document.tokens = front ++ space.toList ++ back
  white : ∀ tok ∈ space, tok.kind = .whitespace
  /-- The white space is found next to the gap. -/
  found : neighbour.filter (fun leaf => t.hasKind leaf .whitespace) =
    space.map Token.id

/-- A split of the tokens at a place where at most one token of white space
stands is a gap. -/
theorem Sound.gap (h : t.Sound) {tok? : Option Token}
    (htokens : t.document.tokens =
      front ++ (tok?.filter (·.kind == .whitespace)).toList ++ back)
    (hmem : ∀ tok ∈ tok?, tok ∈ t.document.tokens) :
    t.Gap (tok?.map Token.id) front
      (tok?.filter (·.kind == .whitespace)) back where
  tokens := htokens
  white := by
    intro tok htok
    exact beq_iff_eq.mp (Option.filter_eq_some_iff.mp htok).2
  found := by
    cases tok? with
    | none => rfl
    | some tok =>
      have hkind : t.hasKind tok.id .whitespace =
          (tok.kind == .whitespace) := by
        rw [Bool.eq_iff_iff, h.hasKind_token (hmem tok rfl), beq_iff_eq]
      simp only [Option.map_some, Option.filter_some, hkind]
      split <;> rfl

/-- The white space in a gap that was filled with a text. -/
def refill (t : Tree) (space : Option Token) (x : String) : Option Token :=
  if x.isEmpty then none
  else some ⟨(space.map Token.id).getD t.count, .whitespace, x⟩

theorem texts_refill (t : Tree) (space : Option Token) (x : String) :
    Token.texts (t.refill space x).toList = x := by
  unfold refill
  split
  · next hx => exact (String.isEmpty_iff.mp hx).symm
  · simp [Token.texts]

theorem white_refill {tok : Token} (htok : tok ∈ t.refill space x) :
    tok.kind = .whitespace := by
  unfold refill at htok
  split at htok
  · cases htok
  · cases htok
    rfl

/-- **Only the white space in the gap changes,** if what is attached comes
to stand there. -/
theorem Gap.tokens_fillGap (g : t.Gap neighbour front space back) (h : t.Sound)
    (hattach : space = none →
      (attach (t.newToken .whitespace x) t.count).failure = none →
      (attach (t.newToken .whitespace x) t.count).tree.document.tokens =
      front ++ ⟨t.count, .whitespace, x⟩ :: back)
    (hok : (t.fillGap neighbour x attach).failure = none) :
    (t.fillGap neighbour x attach).tree.document.tokens =
      front ++ (t.refill space x).toList ++ back := by
  unfold fillGap at hok ⊢
  rw [g.found] at hok ⊢
  cases hspace : space with
  | none =>
    have htokens : t.document.tokens = front ++ back := by
      simpa [hspace] using g.tokens
    cases hx : x.isEmpty with
    | true => simpa [refill, hx] using htokens
    | false =>
      simp only [hspace, Option.map_none, hx, Bool.false_eq_true,
        if_false] at hok ⊢
      simpa [refill, hx] using hattach hspace hok
  | some tok =>
    have htokens : t.document.tokens = front ++ tok :: back := by
      simpa [hspace] using g.tokens
    have ha := h.around_of_tokens htokens
    have hmem : tok ∈ t.document.tokens := by simp [htokens]
    cases hx : x.isEmpty with
    | true =>
      simp only [hspace, Option.map_some, hx, if_true] at hok ⊢
      obtain ⟨-, -, -, -, hdoc⟩ := detach_of_success h hok
      rw [hdoc, ha.tokens_remove h.nodup_document]
      simp [refill, hx]
    | false =>
      have hleaf : t.isLeaf tok.id = true :=
        Option.isSome_iff_exists.mpr ⟨_, (h.of_mem_tokens hmem).2.2⟩
      simp only [Option.map_some, Bool.false_eq_true, if_false]
      rw [document_replaceText h hleaf, ha.tokens_setText h.nodup_document,
        g.white tok hspace]
      simp [refill, hx]

/-! ## The gap before a node -/

/-- There is a gap in front of every attached node. -/
theorem Sound.gap_before (h : t.Sound)
    (ha : Forest.Around n t.document pre (t.subtree n) post) :
    ∃ front,
      pre = front ++ (pre.getLast?.filter (·.kind == .whitespace)).toList ∧
      t.Gap (t.prevLeaf? n) front (pre.getLast?.filter (·.kind == .whitespace))
        ((t.subtree n).tokens ++ post) := by
  obtain ⟨front, hpre⟩ := exists_append_getLast?_filter pre
    (·.kind == .whitespace)
  refine ⟨front, hpre, ?_⟩
  rw [prevLeaf?, (h.tokens_of_around ha).1, List.head?_reverse]
  refine h.gap ?_ fun tok htok => ?_
  · rw [← hpre, ha.tokens_eq, List.append_assoc]
  · rw [ha.tokens_eq, List.append_assoc]
    exact List.mem_append_left _ (List.mem_of_getLast? htok)

/-- The edit in front of a node fills that gap. -/
theorem Gap.tokens_spaceBefore
    (g : t.Gap (t.prevLeaf? n) front space ((t.subtree n).tokens ++ post))
    (h : t.Sound)
    (ha : Forest.Around n t.document (front ++ space.toList) (t.subtree n) post)
    (hok : (t.spaceBefore n x).failure = none) :
    (t.spaceBefore n x).tree.document.tokens =
      front ++ (t.refill space x).toList ++ ((t.subtree n).tokens ++ post) := by
  refine g.tokens_fillGap h (fun hnone hput => ?_) hok
  rw [hnone, ← document_newToken h x] at ha
  rw [((sound_newToken h x).around_insertBefore ha hput).tokens_eq,
    subtree_newToken h]
  simp [Forest.tokens]

/-- If the text is not empty, the last token before the node gets it if it
is white space, and otherwise there is a new one. -/
theorem tokens_spaceBefore (h : t.Sound)
    (ha : Forest.Around n t.document pre (t.subtree n) post)
    (hx : x.isEmpty = false) (hok : (t.spaceBefore n x).failure = none) :
    ∃ front z, (t.spaceBefore n x).tree.document.tokens =
        front ++ ⟨z, .whitespace, x⟩ :: ((t.subtree n).tokens ++ post) ∧
      ((∃ y, pre = front ++ [⟨z, .whitespace, y⟩]) ∨
        pre = front ∧ z = t.count ∧ ∀ tok, pre.getLast? = some tok →
          tok.kind ≠ .whitespace) := by
  obtain ⟨front, hpre, g⟩ := h.gap_before ha
  have htokens := g.tokens_spaceBefore h (hpre ▸ ha) hok
  cases hspace : pre.getLast?.filter (·.kind == .whitespace) with
  | none =>
    rw [hspace] at hpre htokens
    refine ⟨front, t.count, by simpa [refill, hx] using htokens,
      Or.inr ⟨by simpa using hpre, rfl, ?_⟩⟩
    intro tok htok
    simpa using Option.filter_eq_none_iff.mp hspace tok htok
  | some tok =>
    have hwhite := g.white tok hspace
    rw [hspace] at hpre htokens
    refine ⟨front, tok.id, by simpa [refill, hx] using htokens,
      Or.inl ⟨tok.text, ?_⟩⟩
    rw [hpre, ← hwhite]
    rfl

/-! ## The gap after a node -/

/-- There is a gap behind every attached node. -/
theorem Sound.gap_after (h : t.Sound)
    (ha : Forest.Around n t.document pre (t.subtree n) post) :
    ∃ back, post = (post.head?.filter (·.kind == .whitespace)).toList ++ back ∧
      t.Gap (t.nextLeaf? n) (pre ++ (t.subtree n).tokens)
        (post.head?.filter (·.kind == .whitespace)) back := by
  obtain ⟨back, hpost⟩ := exists_head?_filter_append post
    (·.kind == .whitespace)
  refine ⟨back, hpost, ?_⟩
  rw [nextLeaf?, (h.tokens_of_around ha).2]
  refine h.gap ?_ fun tok htok => ?_
  · rw [List.append_assoc, ← hpost, ha.tokens_eq]
  · rw [ha.tokens_eq]
    exact List.mem_append_right _ (List.mem_of_head? htok)

/-- The edit behind a node fills that gap. -/
theorem Gap.tokens_spaceAfter
    (g : t.Gap (t.nextLeaf? n) (pre ++ (t.subtree n).tokens) space back)
    (h : t.Sound)
    (ha : Forest.Around n t.document pre (t.subtree n) (space.toList ++ back))
    (hok : (t.spaceAfter n x).failure = none) :
    (t.spaceAfter n x).tree.document.tokens = pre ++ (t.subtree n).tokens ++
      (t.refill space x).toList ++ back := by
  refine g.tokens_fillGap h (fun hnone hput => ?_) hok
  rw [hnone, ← document_newToken h x] at ha
  rw [((sound_newToken h x).around_insertAfter ha hput).tokens_eq,
    subtree_newToken h]
  simp [Forest.tokens]

/-- If the text is not empty, the next token gets it if it is white space,
and otherwise there is a new one. -/
theorem tokens_spaceAfter (h : t.Sound)
    (ha : Forest.Around n t.document pre (t.subtree n) post)
    (hx : x.isEmpty = false) (hok : (t.spaceAfter n x).failure = none) :
    ∃ m rest, (t.spaceAfter n x).tree.document.tokens =
        pre ++ (t.subtree n).tokens ++ ⟨m, .whitespace, x⟩ :: rest ∧
      (post = rest ∨ ∃ space : Token, space.kind = .whitespace ∧
        post = space :: rest) := by
  obtain ⟨back, hpost, g⟩ := h.gap_after ha
  have htokens := g.tokens_spaceAfter h (hpost ▸ ha) hok
  cases hspace : post.head?.filter (·.kind == .whitespace) with
  | none =>
    rw [hspace] at hpost htokens
    exact ⟨t.count, back, by simpa [refill, hx] using htokens,
      Or.inl (by simpa using hpost)⟩
  | some tok =>
    have hwhite := g.white tok hspace
    rw [hspace] at hpost htokens
    exact ⟨tok.id, back, by simpa [refill, hx] using htokens,
      Or.inr ⟨tok, hwhite, hpost⟩⟩

/-- The first token behind a node is still the first one when it gets
another text. -/
theorem head_tokensAfter_replaceText (h : t.Sound) (hn : n ∈ t.document.ids)
    (hz : t.nextLeaf? n = some z) (hk : t.kind? z = some .whitespace)
    (x : String) :
    ((t.replaceText z x).tree.tokensAfter n).head? =
      some ⟨z, .whitespace, x⟩ := by
  obtain ⟨tok, hhead, rfl⟩ := Option.map_eq_some_iff.mp hz
  obtain ⟨hmem, hleaf⟩ := neighbour_leaf h hn (Or.inr (List.mem_of_head? hhead))
  have hrespaced := respaced_replaceText h hmem hk hleaf x
  have hn' : n ∈ (t.replaceText tok.id x).tree.document.ids :=
    (ids_replaceText h tok.id x).symm ▸ hn
  obtain ⟨pre, post, ha⟩ := h.around hn
  obtain ⟨pre', post', ha'⟩ := hrespaced.sound.around hn'
  have hmap := Forest.map_id_tokensAfter?_setText n tok.id x t.document
  rw [← document_replaceText h hleaf, ha.tokensAfter?, ha'.tokensAfter?,
    Option.map_some, Option.map_some,
    Option.some.injEq] at hmap
  have hids := congrArg List.head? hmap
  rw [List.head?_map, List.head?_map, ← (h.tokens_of_around ha).2,
    hhead] at hids
  obtain ⟨tok', hhead', hid⟩ := Option.map_eq_some_iff.mp hids
  have hmem' : tok' ∈ (t.replaceText tok.id x).tree.document.tokens := by
    rw [ha'.tokens_eq]
    exact List.mem_append_right _ (List.mem_of_head? hhead')
  rw [(hrespaced.sound.tokens_of_around ha').2, hhead',
    hrespaced.eq_of_mem hmem' hid]

/-- White space after a node is the first token behind it. -/
theorem nearest_spaceAfter (h : t.Sound) (hn : n ∈ t.document.ids)
    (hx : x.isEmpty = false) (hu : (t.spaceAfter n x).tree.Sound)
    (hok : (t.spaceAfter n x).failure = none) :
    ∃ z, ((t.spaceAfter n x).tree.tokensAfter n).head? =
      some ⟨z, .whitespace, x⟩ := by
  unfold spaceAfter fillGap at hok hu ⊢
  cases hleaf : (t.nextLeaf? n).filter fun leaf =>
      t.hasKind leaf .whitespace with
  | none =>
    simp only [hleaf, hx, Bool.false_eq_true, if_false] at hok hu ⊢
    have hv := sound_newToken h x
    obtain ⟨pre, post, ha⟩ := hv.around (document_newToken h x ▸ hn)
    refine ⟨t.count, ?_⟩
    rw [(hu.tokens_of_around (hv.around_insertAfter ha hok)).2,
      subtree_newToken h]
    rfl
  | some z =>
    obtain ⟨hz, hk⟩ := Option.filter_eq_some_iff.mp hleaf
    simp only [hx, Bool.false_eq_true, if_false]
    exact ⟨z, head_tokensAfter_replaceText h hn hz
      (by simpa [hasKind] using hk) x⟩

/-! ## Success -/

/-- In a file that is more than one token the root is no token. -/
theorem Sound.leaf_ne_root (h : t.Sound) (hn : n ∈ t.document.ids)
    (hroot : n ≠ root) (hleaf : t.isLeaf m = true) : m ≠ root := by
  rintro rfl
  rcases h.forest_cases with ⟨k, y, r, hf⟩ | ⟨k, c, r, hf⟩
  · have hdoc : t.document =
        .token root k y .nil := by simp [document, subtree, hf, Forest.subtree?]
    rw [hdoc] at hn
    exact hroot (by simpa [Forest.ids] using hn)
  · simp [isLeaf, tokenText?, subtree, hf, Forest.subtree?, Forest.rootText?]
      at hleaf

/-- Emptying a gap always succeeds. -/
theorem fillGap_empty_succeeds (h : t.Sound)
    (hneighbour : ∀ leaf, neighbour = some leaf → leaf ∈ t.document.ids ∧
      leaf ≠ root)
    (hx : x.isEmpty = true) :
    (t.fillGap neighbour x attach).failure = none := by
  unfold fillGap
  split
  · next leaf hleaf =>
    obtain ⟨hmem, hne⟩ := hneighbour leaf (Option.filter_eq_some_iff.mp hleaf).1
    rw [if_pos hx]
    exact (detach_succeeds_iff h hmem).mpr hne
  · rw [if_pos hx]

/-- White space next to an attached node that is not the root. -/
theorem space_succeeds (h : t.Sound) (hn : n ∈ t.document.ids)
    (hroot : n ≠ root) (x : String) :
    (t.spaceBefore n x).failure = none ∧ (t.spaceAfter n x).failure = none := by
  have hbeside : ∀ tok : Token, tok ∈ t.tokensBefore n ∨ tok ∈ t.tokensAfter n →
      tok.id ∈ t.document.ids ∧ tok.id ≠ root := by
    intro tok htok
    obtain ⟨hmem, hleaf⟩ := neighbour_leaf h hn htok
    exact ⟨hmem, h.leaf_ne_root hn hroot hleaf⟩
  cases hx : x.isEmpty with
  | false =>
    exact ⟨(spaceBefore_succeeds_iff h hn hx).mpr hroot,
      (spaceAfter_succeeds_iff h hn hx).mpr hroot⟩
  | true =>
    constructor
    · refine fillGap_empty_succeeds h (fun leaf hleaf => ?_) hx
      obtain ⟨tok, htok, rfl⟩ := Option.map_eq_some_iff.mp hleaf
      exact hbeside tok (Or.inl (List.mem_of_head? htok))
    · refine fillGap_empty_succeeds h (fun leaf hleaf => ?_) hx
      obtain ⟨tok, htok, rfl⟩ := Option.map_eq_some_iff.mp hleaf
      exact hbeside tok (Or.inr (List.mem_of_head? htok))

/-! ## Main statement -/

/-- The white space at a gap: the text of the leaf next to it if that is
white space. -/
def gapText (t : Tree) (neighbour : Option NodeId) : String :=
  ((neighbour.filter fun leaf => t.hasKind leaf .whitespace).bind
    t.tokenText?).getD ""

/-- An edit makes `x` the white space of one gap of a tree, the one between
the texts `front` and `back`. The leaf next to the gap is the one that
`leaf?` finds. -/
structure FillsGap (edit : Tree → Edited) (leaf? : Tree → Option NodeId)
    (x front back : String) (t : Tree) : Prop where
  succeeds : (edit t).failure = none
  old : t.toText = front ++ t.gapText (leaf? t) ++ back
  new : (edit t).tree.toText = front ++ x ++ back
  /-- All other leaves stay, in their order, with their kinds and texts. -/
  others : (edit t).tree.document.tokens.filter (·.kind != .whitespace) =
    t.document.tokens.filter (·.kind != .whitespace)
  filled : x ≠ "" → ∃ z, leaf? (edit t).tree = some z ∧
    (edit t).tree.kind? z = some .whitespace ∧
    (edit t).tree.tokenText? z = some x
  /-- Doing it again creates no node and changes none. -/
  again : x ≠ "" → (edit (edit t).tree).failure = none ∧
    (edit (edit t).tree).tree.forest = (edit t).tree.forest ∧
    (edit (edit t).tree).tree.count = (edit t).tree.count

theorem Gap.texts_space (g : t.Gap neighbour front space back) (h : t.Sound) :
    t.gapText neighbour = Token.texts space.toList := by
  rw [gapText, g.found]
  cases hspace : space with
  | none => rfl
  | some tok =>
    have hmem : tok ∈ t.document.tokens := by simp [g.tokens, hspace]
    simp [(h.of_mem_tokens hmem).2.2, Token.texts]

/-- White space that has the text already. -/
theorem fillGap_same (h : t.Sound) {tok : Token}
    (htok : tok ∈ t.document.tokens) (hk : tok.kind = .whitespace)
    (hx : tok.text.isEmpty = false) :
    (t.fillGap (some tok.id) tok.text attach).failure = none ∧
      (t.fillGap (some tok.id) tok.text attach).tree.forest = t.forest ∧
      (t.fillGap (some tok.id) tok.text attach).tree.count = t.count := by
  have htext := (h.of_mem_tokens htok).2.2
  obtain ⟨k, hs⟩ := subtree?_of_tokenText? htext
  have hfound : (some tok.id).filter (fun leaf => t.hasKind leaf .whitespace) =
      some tok.id := by
    rw [Option.filter_some, if_pos ((h.hasKind_token htok).mpr hk)]
  simp only [fillGap, hfound, hx, Bool.false_eq_true, if_false, replaceText,
    htext, record_forest]
  exact ⟨trivial, Forest.setText_self h.nodup hs, record_count _ _⟩

theorem filter_white (hspace : ∀ tok ∈ space, tok.kind = .whitespace) :
    space.toList.filter (·.kind != .whitespace) = [] := by
  rw [List.filter_eq_nil_iff]
  intro tok htok
  simp [hspace tok (Option.mem_toList.mp htok)]

/-- What filling a gap does to the text, to the tokens that are not white
space, and to what stands in the gap afterwards. -/
theorem Gap.fillsGap (leaf? : Tree → Option NodeId)
    (g : t.Gap (leaf? t) front space back) (h : t.Sound)
    (hok : (t.fillGap (leaf? t) x attach).failure = none)
    (hu : (t.fillGap (leaf? t) x attach).tree.Sound)
    (htokens : (t.fillGap (leaf? t) x attach).tree.document.tokens =
      front ++ (t.refill space x).toList ++ back)
    (hnext : x.isEmpty = false →
      ∃ tok ∈ (t.fillGap (leaf? t) x attach).tree.document.tokens,
      leaf? (t.fillGap (leaf? t) x attach).tree = some tok.id ∧
      tok.kind = .whitespace ∧ tok.text = x) :
    FillsGap (fun t => t.fillGap (leaf? t) x attach) leaf? x (Token.texts front)
      (Token.texts back) t := by
  have hnext' : x ≠ "" → _ := fun hx => hnext (by simpa using hx)
  refine ⟨hok, ?_, ?_, ?_, fun hx => ?_, fun hx => ?_⟩
  · rw [toText_eq, g.tokens, g.texts_space h, Token.texts_append,
      Token.texts_append]
  · rw [toText_eq, htokens, Token.texts_append, Token.texts_append,
      texts_refill]
  · rw [htokens, g.tokens]
    simp only [List.filter_append, filter_white g.white, filter_white fun tok =>
      white_refill]
  · obtain ⟨tok, htok, hleaf, hk, htext⟩ := hnext' hx
    obtain ⟨-, hkind, htext'⟩ := hu.of_mem_tokens htok
    exact ⟨tok.id, hleaf, hk ▸ hkind, htext ▸ htext'⟩
  · obtain ⟨tok, htok, hleaf, hk, rfl⟩ := hnext' hx
    simp only [hleaf]
    exact fillGap_same hu htok hk (by simpa using hx)

/-- The same for the gap in front of a node, with where it is in the text.
-/
theorem Consistent.fillsGap_before (h : t.Consistent)
    (ha : Forest.Around n t.document pre (t.subtree n) post) (hroot : n ≠ root)
    (x : String) :
    ∃ front back, FillsGap (·.spaceBefore n x) (·.prevLeaf? n) x front back t ∧
      (front ++ t.gapText (t.prevLeaf? n)).utf8ByteSize = t.startOffset n := by
  have hok := (space_succeeds h.sound ha.mem hroot x).1
  have hu : (t.spaceBefore n x).tree.Sound := (h.apply (.spaceBefore n x)).sound
  obtain ⟨front, hpre, g⟩ := h.sound.gap_before ha
  have htokens := g.tokens_spaceBefore h.sound (hpre ▸ ha) hok
  refine ⟨_, _, g.fillsGap (·.prevLeaf? n) h.sound hok hu htokens
    fun hx => ?_, ?_⟩
  · obtain ⟨z, hz⟩ := spacedBefore_spaceBefore h.sound ha.mem hx hok
    have hmem := hu.mem_tokens_of_beside (hz.kept ha.mem)
      (Or.inl (List.mem_of_head? hz.nearest))
    refine ⟨_, hmem, ?_, rfl, rfl⟩
    exact congrArg (Option.map Token.id) hz.nearest
  · rw [h.sound.startOffset_eq ha, g.texts_space h.sound,
      ← Token.texts_append, ← hpre]

/-- And for the gap behind it. -/
theorem Consistent.fillsGap_after (h : t.Consistent)
    (ha : Forest.Around n t.document pre (t.subtree n) post) (hroot : n ≠ root)
    (x : String) :
    ∃ front back, FillsGap (·.spaceAfter n x) (·.nextLeaf? n) x front back t ∧
      front.utf8ByteSize = t.startOffset n + t.textLength n := by
  have hok := (space_succeeds h.sound ha.mem hroot x).2
  have hu : (t.spaceAfter n x).tree.Sound := (h.apply (.spaceAfter n x)).sound
  obtain ⟨back, hpost, g⟩ := h.sound.gap_after ha
  have htokens := g.tokens_spaceAfter h.sound (hpost ▸ ha) hok
  refine ⟨_, _, g.fillsGap (·.nextLeaf? n) h.sound hok hu htokens
    fun hx => ?_, ?_⟩
  · obtain ⟨z, hz⟩ := nearest_spaceAfter h.sound ha.mem hx hu hok
    have hn : n ∈ (t.spaceAfter n x).tree.document.ids :=
      document_subset_spaceAfter h.sound n hx ha.mem
    have hmem := hu.mem_tokens_of_beside hn (Or.inr (List.mem_of_head? hz))
    refine ⟨_, hmem, ?_, rfl, rfl⟩
    exact congrArg (Option.map Token.id) hz
  · rw [h.sound.startOffset_eq ha, textLength_eq, text_eq, Token.texts_append,
      String.utf8ByteSize_append]

/-- **White space next to a node fills one gap.** In every tree that can
come about it can be put before and after every attached node other than the
root. Specification, §3. -/
theorem space_fills_gap {t : Tree} (h : t.Reachable) {n : NodeId}
    (hn : t.isAttached n = true) (hroot : n ≠ root) (x : String) :
    (∃ front back, FillsGap (·.spaceBefore n x) (·.prevLeaf? n) x front back t ∧
        (front ++ t.gapText (t.prevLeaf? n)).utf8ByteSize = t.startOffset n) ∧
      ∃ front back, FillsGap (·.spaceAfter n x) (·.nextLeaf? n) x front back t ∧
        front.utf8ByteSize = t.startOffset n + t.textLength n := by
  obtain ⟨pre, post, ha⟩ := h.consistent.sound.around_of_attached hn
  exact ⟨h.consistent.fillsGap_before ha hroot x,
    h.consistent.fillsGap_after ha hroot x⟩

/-- An empty node between white space that belongs to another node and a
token: the white space before it gets the text, and after it there is none
yet. -/
theorem space_fills_gap_across_nodes :
    let t := build .file
      [.start .block, .token .identifier "é", .token .whitespace "  ", .finish,
        .start .block, .finish, .start .block,
        .start .block, .finish, .token .identifier "b", .finish]
    t.isAttached 6 = true ∧ 6 ≠ root ∧ t.children 6 = [] ∧
      t.prevLeaf? 6 = some 3 ∧ t.nextLeaf? 6 = some 7 ∧
      (t.spaceBefore 6 "\n").tree.toText = "é\nb" ∧
        (t.spaceAfter 6 "\n").tree.toText = "é  \nb" ∧
      (∃ front back, FillsGap (·.spaceBefore 6 "\n") (·.prevLeaf? 6) "\n"
        front back t ∧
        (front ++ "  ").utf8ByteSize = 4) ∧
      ∃ front back, FillsGap (·.spaceAfter 6 "\n") (·.nextLeaf? 6) "\n" front
          back t ∧ front.utf8ByteSize = 4 := by
  intro t
  have hfills := space_fills_gap (t := t) ⟨.file, _, [], rfl⟩ (n := 6)
    (by decide) (by decide) "\n"
  exact ⟨by decide, by decide, by decide, by decide, by decide, by decide, by
    decide, hfills⟩

end Tree

end TreeLint
