import TreeLint.Proofs.Forest.Tokens
import TreeLint.Proofs.Tree.Effect

/-!
# The tree of the file under edits

The forest of a tree also holds whatever was detached. What a reader of the
file sees is `document`, the outermost tree of the root, and the questions
rules ask about an attached node are questions about it
(`Sound.tokens_of_around`).

Each change does to the document what it says, or nothing if it happens
elsewhere: `document_cut`, `document_graft`, `document_retext`. For edits
this comes to two statements. An edit of white space changes, removes or
adds one white space node (`Spaced`), and a node that is moved next to a
token has its tokens next to that token afterwards (`tokens_moveAfter`,
`tokens_moveBefore`).

Specification, §3.
-/

namespace TreeLint.Tree

variable {t u : Tree} {n m p c z : NodeId} {i j : Nat} {pre post : List Token}
  {s : Forest} {x : String}

/-- The tree of the file, alone. -/
def document (t : Tree) : Forest := t.subtree root

theorem document_congr (h : u.forest = t.forest) : u.document = t.document := by
  rw [document, document, subtree, subtree, h]

/-! ## Attached nodes -/

namespace Sound

/-- The tree of the file comes first. -/
theorem forest_cases (h : t.Sound) :
    (∃ k y r, t.forest = .token root k y r) ∨ ∃ k c r,
      t.forest = .node root k c r := by
  have hroot := h.root_mem
  have hsorted := h.sorted
  cases hf : t.forest with
  | nil => simp [hf, Forest.roots] at hroot
  | token i k y r =>
    simp only [hf, Forest.roots, List.pairwise_cons, List.mem_cons]
      at hroot hsorted
    rcases hroot with rfl | hr
    · exact Or.inl ⟨k, y, r, rfl⟩
    · exact absurd (hsorted.1 _ hr) (Nat.not_lt_zero i)
  | node i k c r =>
    simp only [hf, Forest.roots, List.pairwise_cons, List.mem_cons]
      at hroot hsorted
    rcases hroot with rfl | hr
    · exact Or.inr ⟨k, c, r, rfl⟩
    · exact absurd (hsorted.1 _ hr) (Nat.not_lt_zero i)

theorem subtree?_root (h : t.Sound) :
    t.forest.subtree? root = some t.document := by
  obtain ⟨s, hs⟩ := Forest.exists_subtree
    (Forest.mem_ids_of_mem_roots h.root_mem)
  rw [hs, document, subtree_of_subtree? hs]

/-- The document is one tree. -/
theorem roots_document (h : t.Sound) : t.document.roots = [root] :=
  Forest.roots_subtree? h.subtree?_root

/-- The forest is the document and the rest behind it. -/
theorem forest_eq (h : t.Sound) :
    ∃ rest, t.forest = t.document.append rest := by
  rcases h.forest_cases with ⟨k, y, r, hf⟩ | ⟨k, c, r, hf⟩
  · exact ⟨r, by simp [document, subtree, hf, Forest.subtree?, Forest.append]⟩
  · exact ⟨r, by simp [document, subtree, hf, Forest.subtree?, Forest.append]⟩

theorem nodup_document (h : t.Sound) : t.document.ids.Nodup := by
  obtain ⟨rest, hf⟩ := h.forest_eq
  have hnodup := h.nodup
  rw [hf, Forest.ids_append] at hnodup
  exact hnodup.of_append_left

/-- **The nodes of the document are those that are attached.** -/
theorem mem_document_iff (h : t.Sound) :
    n ∈ t.document.ids ↔ t.isAttached n = true := by
  rw [Forest.mem_subtree?_iff h.nodup h.subtree?_root, isAttached, ancestors]
  simp

theorem contains_document (h : t.Sound) (hn : n ∈ t.document.ids) :
    t.contains n = true :=
  contains_iff_mem.mpr (Forest.ids_subtree?_subset h.subtree?_root hn)

/-- Looking a node of the document up in the document finds what looking it
up anywhere does. -/
theorem subtree?_document (h : t.Sound) (hn : n ∈ t.document.ids) :
    t.document.subtree? n = some (t.subtree n) := by
  obtain ⟨rest, hf⟩ := h.forest_eq
  obtain ⟨s, hs⟩ := Forest.exists_subtree hn
  rw [subtree, hf, Forest.subtree?_append, hs]
  rfl

theorem offspring_document (h : t.Sound) (hp : p ∈ t.document.ids) :
    (t.document.offspring p).roots = t.children p := by
  simp only [Forest.offspring, h.subtree?_document hp,
    Option.getD_some, children]

/-- For an attached node the tree that holds it is the document, so tokens
before and after it are looked for there. -/
theorem component_eq (h : t.Sound) (hn : n ∈ t.document.ids) :
    t.component n = t.document := by
  rcases h.forest_cases with ⟨k, y, r, hf⟩ | ⟨k, c, r, hf⟩
  · have hdoc : t.document =
        .token root k y .nil := by simp [document, subtree, hf, Forest.subtree?]
    rw [hdoc, Forest.ids, Forest.ids, List.mem_singleton] at hn
    simp [component, hf, Forest.component?, hn, hdoc]
  · have hdoc : t.document =
        .node root k c .nil := by simp [document, subtree, hf, Forest.subtree?]
    rw [hdoc, Forest.ids, Forest.ids, List.append_nil, List.mem_cons] at hn
    have hin : root = n ∨ c.contains n = true :=
      hn.imp Eq.symm (Forest.contains_iff_mem n c).mpr
    simp [component, hf, Forest.component?, hin, hdoc]

/-- A token of the document is a node of it, with the kind and text it shows. -/
theorem of_mem_tokens (h : t.Sound) {tok : Token}
    (htok : tok ∈ t.document.tokens) :
    tok.id ∈ t.document.ids ∧ t.kind? tok.id = some tok.kind ∧
      t.tokenText? tok.id = some tok.text := by
  have hs := (Forest.mem_tokens_iff h.nodup_document).mp htok
  have hmem := Forest.mem_of_subtree? hs
  have heq := Option.some.inj ((h.subtree?_document hmem).symm.trans hs)
  refine ⟨hmem, ?_, ?_⟩
  · rw [kind?, heq]
    rfl
  · rw [tokenText?, heq]
    rfl

theorem hasKind_token (h : t.Sound) {tok : Token}
    (htok : tok ∈ t.document.tokens) {k : Kind} :
    t.hasKind tok.id k = true ↔ tok.kind = k := by
  rw [hasKind, (h.of_mem_tokens htok).2.1, beq_iff_eq, Option.some.injEq]

theorem around (h : t.Sound) (hn : n ∈ t.document.ids) :
    ∃ pre post, Forest.Around n t.document pre (t.subtree n) post := by
  obtain ⟨pre, s, post, ha⟩ := Forest.exists_around hn
  obtain rfl := Option.some.inj
    (ha.subtree?.symm.trans (h.subtree?_document hn))
  exact ⟨pre, post, ha⟩

/-- A split of the token list at a token gives its place. -/
theorem around_of_tokens (h : t.Sound) {front back : List Token} {tok : Token}
    (hl : t.document.tokens = front ++ tok :: back) :
    Forest.Around tok.id t.document front
      (.token tok.id tok.kind tok.text .nil) back := by
  have htok : tok ∈ t.document.tokens := by simp [hl]
  have hs := (Forest.mem_tokens_iff h.nodup_document).mp htok
  obtain ⟨pre, s, post, ha⟩ := Forest.exists_around (Forest.mem_of_subtree? hs)
  obtain rfl := Option.some.inj (ha.subtree?.symm.trans hs)
  have htokens := ha.tokens_eq
  rw [List.append_assoc] at htokens
  obtain ⟨rfl, rfl⟩ := Forest.cut_unique
    (Forest.nodup_tokens h.nodup_document) hl htokens
  exact ha

/-- What rules are told about a node, from where it stands. -/
theorem tokens_of_around (h : t.Sound) {s : Forest}
    (ha : Forest.Around n t.document pre s post) :
    t.tokensBefore n = pre.reverse ∧ t.tokensAfter n = post := by
  constructor
  · rw [tokensBefore, h.component_eq ha.mem, ha.tokensBefore?, Option.getD_some]
  · rw [tokensAfter, h.component_eq ha.mem, ha.tokensAfter?, Option.getD_some]

/-- After a node that is detached there are no tokens of the document. -/
theorem not_mem_document_of_mem_tokensAfter (h : t.Sound)
    (hn : n ∉ t.document.ids) {tok : Token} (htok : tok ∈ t.tokensAfter n) :
    tok.id ∉ t.document.ids := by
  obtain ⟨rest, hf⟩ := h.forest_eq
  have hnodup := h.nodup
  rw [hf, Forest.ids_append] at hnodup
  rw [tokensAfter, component, hf, Forest.component?_append,
    Forest.component?_of_not_mem hn, Option.none_or] at htok
  cases hg : rest.component? n with
  | none => simp [hg, Forest.tokensAfter?] at htok
  | some g =>
    rw [hg, Option.getD_some] at htok
    intro hmem
    refine List.disjoint_of_nodup_append hnodup hmem
      (Forest.ids_component?_subset hg ?_)
    exact (Forest.map_id_tokens_sublist g).subset
      (List.mem_map_of_mem (Forest.mem_of_mem_tokensAfter? htok))

/-- A node and its parent are both attached, or neither is. -/
theorem parent_mem_document_iff (h : t.Sound) (hp : t.parent? n = some p) :
    p ∈ t.document.ids ↔ n ∈ t.document.ids := by
  have hroot : n ≠ root := by
    rintro rfl
    rw [h.linked.root_parentless] at hp
    cases hp
  rw [h.mem_document_iff, h.mem_document_iff, isAttached, isAttached,
    ancestors_of_parent? h.nodup hp]
  simp only [Bool.or_eq_true, beq_iff_eq, List.contains_iff_mem, List.mem_cons,
    hroot, false_or]
  rw [@eq_comm _ root p]

/-- Above an attached node all are attached. -/
theorem ancestor_mem_document (h : t.Sound) {a : NodeId}
    (hn : n ∈ t.document.ids) (ha : a ∈ t.ancestors n) :
    a ∈ t.document.ids := by
  induction hl : (t.ancestors n).length generalizing n with
  | zero => simp [List.length_eq_zero_iff.mp hl] at ha
  | succ l ih =>
    cases hp : t.parent? n with
    | none => simp [ancestors_of_parent?_eq_none hp] at ha
    | some p =>
      have hpmem := (h.parent_mem_document_iff hp).mpr hn
      rw [ancestors_of_parent? h.nodup hp] at ha hl
      rcases List.mem_cons.mp ha with rfl | ha
      · exact hpmem
      · exact ih hpmem ha (Nat.succ.inj hl)

/-- Nothing stands below a token. -/
theorem kindIs_ancestor (h : t.Sound) {test : Kind → Bool}
    (ht : t.document.Atomic test) {a : NodeId} (hn : n ∈ t.document.ids)
    (ha : a ∈ t.ancestors n) : t.kindIs a test = false := by
  rw [kindIs, Option.any_eq_false]
  intro k hk
  rw [Bool.eq_false_iff]
  intro htest
  have hmem := h.ancestor_mem_document hn ha
  obtain ⟨y, hy⟩ := ht.eq_token h.nodup_document
    (h.subtree?_document hmem) hk htest
  have hbelow : n ∈ t.descendants a :=
    (h.mem_descendants_iff_above (h.contains_document hmem)).mpr (Or.inr ha)
  rw [descendants, hy] at hbelow
  obtain rfl : n = a := List.mem_singleton.mp hbelow
  exact h.linked.not_own_ancestor n ha

/-- If white space and comments are tokens, a token is code unless it is one
of them. -/
theorem isCodeToken_eq (h : t.Sound) (ht : t.document.Atomic Kind.isTrivia)
    {tok : Token} (htok : tok ∈ t.document.tokens) :
    t.isCodeToken tok = !tok.kind.isTrivia := by
  obtain ⟨hmem, hkind, -⟩ := h.of_mem_tokens htok
  have hcomments : t.document.Atomic Kind.isComment :=
    fun l hl hcomment => ht l hl (by simp [Kind.isTrivia, hcomment])
  have habove : (t.ancestors tok.id).any (fun a => t.kindIs a Kind.isComment) =
      false := by
    rw [List.any_eq_false]
    intro a ha
    simp [h.kindIs_ancestor hcomments hmem ha]
  have hown : t.kindIs tok.id Kind.isComment = tok.kind.isComment := by
    rw [kindIs, hkind, Option.any_some]
  rw [isCodeToken, inComment, habove, hown, Bool.or_false, Kind.isTrivia,
    Bool.not_or]
  exact Bool.and_comm _ _

/-- The siblings on either side of a child. -/
theorem siblings_of_children (h : t.Sound) {before after : List NodeId}
    (hkids : t.children p = before ++ n :: after) :
    t.siblingsBefore n = before.reverse ∧ t.siblingsAfter n = after := by
  have hp : t.parent? n = some p := h.parent?_eq_some_iff.mpr (by simp [hkids])
  have hnodup : (before ++ n :: after).Nodup := hkids ▸ h.nodup_children p
  have hne : ∀ m ∈ before, (m != n) = true := by
    intro m hm
    rw [bne_iff_ne]
    rintro rfl
    exact List.disjoint_of_nodup_append hnodup hm List.mem_cons_self
  constructor
  · simp [siblingsBefore, siblings, hp, hkids, List.takeWhile_append_of_pos hne]
  · simp [siblingsAfter, siblings, hp, hkids, List.dropWhile_append_of_pos hne]

end Sound

/-! ## Changes -/

/-- The root is not below a node that has a parent. -/
theorem root_not_mem_of_childAt (h : t.Sound)
    (hi : (t.children p)[i]? = some n) :
    root ∉ (t.subtree n).ids := by
  have hroot : t.ancestors root = [] :=
    ancestors_of_parent?_eq_none h.linked.root_parentless
  intro hin
  rcases (h.mem_descendants_iff_above (contains_of_childAt h hi).2).mp hin
    with rfl | hm
  · have hp := h.parent?_eq_some_iff.mpr (List.mem_of_getElem? hi)
    rw [h.linked.root_parentless] at hp
    cases hp
  · rw [hroot] at hm
    cases hm

/-- A cut takes the tree out of the document. -/
theorem document_cut (h : t.Sound) (hi : (t.children p)[i]? = some n) :
    (t.cut n).document = t.document.remove n := by
  obtain ⟨s, hs⟩ := Forest.exists_subtree
    (contains_iff_mem.mp (contains_of_childAt h hi).2)
  have hout := root_not_mem_of_childAt h hi
  rw [subtree_of_subtree? hs] at hout
  apply subtree_of_subtree?
  simp only [cut, subtree_of_subtree? hs]
  rw [Forest.subtree?_place root n s _ hout,
    Forest.subtree?_remove h.nodup hs hout, h.subtree?_root,
    Option.map_some]

/-- A graft puts the tree into the document, if the new parent is attached;
otherwise nothing happens there. -/
theorem document_graft (h : t.Sound) (g : t.Graftable p i c) :
    (t.graft p i c).document =
      Forest.insertUnder p i (t.subtree c) t.document := by
  apply subtree_of_subtree?
  have hc : root ≠ c := g.child_ne_root.symm
  rcases h.forest_cases with ⟨k, y, r, hf⟩ | ⟨k, d, r, hf⟩
  · have hdoc : t.document =
        .token root k y .nil := by simp [document, subtree, hf, Forest.subtree?]
    simp [graft, hf, hdoc, Forest.remove, hc, Forest.insertUnder,
      Forest.subtree?]
  · have hdoc : t.document =
        .node root k d .nil := by simp [document, subtree, hf, Forest.subtree?]
    -- the child is an outermost tree of its own
    have hcd : c ∉ d.ids := by
      intro hm
      have hatt : c ∈ t.document.ids := by simp [hdoc, Forest.ids, hm]
      rw [h.mem_document_iff, isAttached,
        ancestors_of_parent?_eq_none g.child_detached] at hatt
      simp [g.child_ne_root] at hatt
    by_cases hp : root = p
    · subst hp
      simp [graft, hf, hdoc, Forest.remove, hc, Forest.insertUnder,
        Forest.subtree?, Forest.remove_of_not_mem hcd]
    · simp [graft, hf, hdoc, Forest.remove, hc, Forest.insertUnder,
        Forest.subtree?, hp,
        Forest.remove_of_not_mem hcd]

/-- A new text is a new text in the document, for an attached token. -/
theorem document_retext (h : t.Sound) (n : NodeId) (x : String) :
    (t.retext n x).document = t.document.setText n x := by
  apply subtree_of_subtree?
  rcases h.forest_cases with ⟨k, y, r, hf⟩ | ⟨k, d, r, hf⟩
  · have hdoc : t.document =
        .token root k y .nil := by simp [document, subtree, hf, Forest.subtree?]
    by_cases hn : root = n
    · simp [retext, hf, hdoc, Forest.setText, hn, Forest.subtree?]
    · simp [retext, hf, hdoc, Forest.setText, hn, Forest.subtree?]
  · have hdoc : t.document =
        .node root k d .nil := by simp [document, subtree, hf, Forest.subtree?]
    simp [retext, hf, hdoc, Forest.setText, Forest.subtree?]

theorem document_replaceText (h : t.Sound) (hleaf : t.isLeaf n = true)
    (x : String) :
    (t.replaceText n x).tree.document = t.document.setText n x := by
  obtain ⟨y, hy⟩ := Option.isSome_iff_exists.mp hleaf
  simp only [replaceText, hy]
  rw [document_congr (record_forest _ _), document_retext h]

theorem document_grow (h : t.Sound) (x : Forest) :
    (t.grow x).document = t.document := by
  apply subtree_of_subtree?
  rw [grow, Forest.subtree?_append, h.subtree?_root]
  rfl

/-! ## Edits that succeed -/

/-- A node that is detached has a parent, and is taken out of the document
if it was there. -/
theorem detach_of_success (h : t.Sound) (hok : (t.detach n).failure = none) :
    ∃ (p : NodeId) (i : Nat), (t.children p)[i]? = some n ∧
      (t.detach n).tree.forest = (t.cut n).forest ∧
      (t.detach n).tree.document = t.document.remove n := by
  unfold detach at hok ⊢
  split at hok
  · next p i hp hi =>
    have hchild := childAt_of_childIndex? hp hi
    refine ⟨p, i, hchild, record_forest _ _, ?_⟩
    rw [document_congr (record_forest _ _), document_cut h hchild]
  · cases hok

theorem record_revision (t : Tree) (e : Undo) :
    (t.record e).revision = t.revision := by
  unfold record; split <;> rfl

/-- An insertion that succeeds is a graft. -/
theorem insertChild_eq_graft (h : t.Sound)
    (hok : (t.insertChild p i c).failure = none) :
    t.Graftable p i c ∧ (t.insertChild p i c).tree = (t.graft p i c).record
      (.attached p i) := by
  rcases insertChild_cases h p i c with hsame | hgraft
  · unfold insertChild at hok hsame ⊢
    split_ifs at hok hsame with hp hc hl hd hcyc hb
    -- a graft raises the revision
    have hrev := congrArg Tree.revision hsame
    simp [record_revision, graft] at hrev
  · exact hgraft

theorem insertChild_of_success (h : t.Sound)
    (hok : (t.insertChild p i c).failure = none) :
    t.Graftable p i c ∧
      (t.insertChild p i c).tree.document =
        Forest.insertUnder p i (t.subtree c) t.document := by
  obtain ⟨g, htree⟩ := insertChild_eq_graft h hok
  refine ⟨g, ?_⟩
  rw [htree, document_congr (record_forest _ _), document_graft h g]

theorem andThen_of_success {e : Edited} {next : Tree → Edited}
    (hok : (e.andThen next).failure = none) :
    e.failure = none ∧ e.andThen next = next e.tree := by
  unfold Edited.andThen at hok ⊢
  split at hok
  · next hfail => simp [hfail] at hok
  · next hfail => exact ⟨hfail, rfl⟩

/-! ## White space -/

/-- A change of one white space node of a document, to the text `x` if it is
left with one. -/
inductive Spaced (x : String) (f : Forest) : Forest → Prop
  | same : Spaced x f f
  | removed {n : NodeId} {s : Forest} (hs : f.subtree? n = some s)
      (hk : s.rootKind? = some .whitespace) (hx : x.isEmpty = true) :
      Spaced x f (f.remove n)
  | retexted {n : NodeId} {y : String} (hs : f.subtree? n =
    some (.token n .whitespace y .nil)) :
      Spaced x f (f.setText n x)
  | added (n p : NodeId) (i : Nat) :
    Spaced x f (Forest.insertUnder p i (.token n .whitespace x .nil) f)

namespace Spaced

variable {f g : Forest}

theorem atomic {test : Kind → Bool} (h : Spaced x f g) (hf : f.ids.Nodup)
    (ha : f.Atomic test) : g.Atomic test := by
  cases h with
  | same => exact ha
  | removed hs => exact ha.remove hf hs
  | retexted => exact ha.setText _ _
  | added =>
    exact ha.insertUnder (Forest.Atomic.token
      (by simp [Forest.Atomic, Forest.labels])) _ _

/-- No other tokens are concerned. -/
theorem pick_eq {keep skip : Kind → Bool} (h : Spaced x f g) (hf : f.ids.Nodup)
    (ha : f.Atomic Kind.isTrivia) (hkeep : keep .whitespace = false) :
    g.pick keep skip = f.pick keep skip := by
  cases h with
  | same => rfl
  | removed hs hk =>
    obtain ⟨y, rfl⟩ := ha.eq_token hf hs hk rfl
    exact Forest.pick_remove hf hs (by simp [Forest.pick, hkeep])
  | retexted hs => exact Forest.pick_setText hf hs hkeep x
  | added => exact Forest.pick_insertUnder (by simp [Forest.pick, hkeep]) _ _ _

/-- If the text is not empty there is one more token of white space, or one
was there with another text. -/
theorem tokens_cases (h : Spaced x f g) (hf : f.ids.Nodup)
    (hx : x.isEmpty = false) :
    g.tokens = f.tokens ∨ ∃ pre n post,
      g.tokens = pre ++ ⟨n, .whitespace, x⟩ :: post ∧
      (f.tokens = pre ++ post ∨
        ∃ y, f.tokens = pre ++ ⟨n, .whitespace, y⟩ :: post) := by
  cases h with
  | same => exact Or.inl rfl
  | removed _ _ hempty => simp [hempty] at hx
  | @retexted n y hs =>
    obtain ⟨pre, s, post, ha⟩ :=
      Forest.exists_around (Forest.mem_of_subtree? hs)
    obtain rfl : s = .token n .whitespace y .nil :=
      Option.some.inj (ha.subtree?.symm.trans hs)
    refine Or.inr ⟨pre, n, post, ha.tokens_setText hf x, Or.inr ⟨y, ?_⟩⟩
    simpa [Forest.tokens] using ha.tokens_eq
  | added n p i =>
    refine (Forest.tokens_insertUnder_cases _ p i hf).imp id ?_
    rintro ⟨pre, post, hpre, hpost⟩
    exact ⟨pre, n, post, by simpa [Forest.tokens] using hpost, Or.inl hpre⟩

end Spaced

/-- Taking out a token of white space changes white space only. -/
theorem spaced_detach (h : t.Sound) (hk : t.hasKind n .whitespace = true) :
    Spaced "" t.document (t.detach n).tree.document := by
  cases hok : (t.detach n).failure with
  | some e =>
    have hsame : (t.detach n).tree = t := by
      unfold detach at hok ⊢
      split at hok
      · cases hok
      · rfl
    rw [hsame]
    exact .same
  | none =>
    obtain ⟨p, i, -, -, hdoc⟩ := detach_of_success h hok
    rw [hdoc]
    by_cases hn : n ∈ t.document.ids
    · exact .removed (h.subtree?_document hn)
        (by simpa [hasKind, kind?] using hk) rfl
    · rw [Forest.remove_of_not_mem hn]
      exact .same

/-- So does giving it another text. -/
theorem spaced_replaceText (h : t.Sound) (hk : t.hasKind n .whitespace = true)
    (x : String) :
    Spaced x t.document (t.replaceText n x).tree.document := by
  unfold replaceText
  split
  · next y hy =>
    rw [document_congr (record_forest _ _), document_retext h]
    by_cases hn : n ∈ t.document.ids
    · obtain ⟨k, hs⟩ := subtree?_of_tokenText? hy
      have hkind : k = .whitespace := by
        simpa [hasKind, kind?, subtree, hs, Forest.rootKind?] using hk
      refine .retexted (y := y) ?_
      rw [h.subtree?_document hn, subtree, hs, hkind]
      rfl
    · rw [Forest.setText_of_not_mem x hn]
      exact .same
  · exact .same

theorem subtree_newToken (h : t.Sound) (x : String) :
    (t.newToken .whitespace x).subtree t.count =
      .token t.count .whitespace x .nil := by
  apply subtree_of_subtree?
  have hfresh : t.forest.subtree? t.count = none :=
    (Forest.subtree?_eq_none_iff _ _).mpr fun hm =>
      Nat.lt_irrefl _ ((h.mem_ids _).mp hm)
  simp [newToken, Forest.subtree?_append, hfresh, Forest.subtree?]

theorem sound_newToken (h : t.Sound) (x : String) :
    (t.newToken .whitespace x).Sound :=
  h.grow (.token .whitespace x)

theorem document_newToken (h : t.Sound) (x : String) :
    (t.newToken .whitespace x).document = t.document :=
  document_grow h (.token t.count .whitespace x .nil)

/-- New white space is attached where `attach` says, or not at all. -/
theorem spaced_newToken (h : t.Sound) {e : Edited}
    (he : e.tree = t.newToken .whitespace x ∨
      ∃ p i, e = (t.newToken .whitespace x).insertChild p i t.count) :
    Spaced x t.document e.tree.document := by
  rcases he with he | ⟨p, i, rfl⟩
  · rw [he, document_newToken h]
    exact .same
  · rcases insertChild_cases (sound_newToken h x) p i t.count
      with htree | ⟨g, htree⟩
    · rw [htree, document_newToken h]
      exact .same
    · rw [htree, document_congr (record_forest _ _),
        document_graft (sound_newToken h x) g, document_newToken h,
        subtree_newToken h]
      exact .added _ _ _

/-- Filling a gap changes white space only, whichever way the new token is
attached. -/
theorem spaced_fillGap (h : t.Sound) (neighbour : Option NodeId) (x : String)
    (attach : Tree → NodeId → Edited)
    (hattach : ∀ u c, (attach u c).tree = u ∨ ∃ p i,
      attach u c = u.insertChild p i c) :
    Spaced x t.document (t.fillGap neighbour x attach).tree.document := by
  unfold fillGap
  split
  · next space hspace =>
    have hk := (Option.filter_eq_some_iff.mp hspace).2
    split
    · next hx =>
      have hempty : x = "" := String.isEmpty_iff.mp hx
      rw [hempty]
      exact spaced_detach h hk
    · exact spaced_replaceText h hk x
  · split
    · exact .same
    · exact spaced_newToken h (hattach _ _)

theorem spaced_spaceBefore (h : t.Sound) (n : NodeId) (x : String) :
    Spaced x t.document (t.spaceBefore n x).tree.document :=
  spaced_fillGap h _ x _ fun u c => insertBefore_cases u n c

theorem spaced_spaceAfter (h : t.Sound) (n : NodeId) (x : String) :
    Spaced x t.document (t.spaceAfter n x).tree.document :=
  spaced_fillGap h _ x _ fun u c => insertAfter_cases u n c

/-! ### Right behind a node -/

/-- Where a node stands that was attached behind another. -/
theorem insertAfter_of_success (h : t.Sound)
    (hok : (t.insertAfter n c).failure = none) :
    ∃ (p : NodeId) (i : Nat), t.parent? n = some p ∧
      (t.children p)[i]? = some n ∧
      (t.insertAfter n c).tree.document =
        Forest.insertUnder p (i + 1) (t.subtree c) t.document := by
  unfold insertAfter at hok ⊢
  split at hok
  · next p i hp hi =>
      exact ⟨p, i, hp, childAt_of_childIndex? hp hi,
        (insertChild_of_success h hok).2⟩
  · cases hok

/-- Behind a node that is detached, white space is no matter of the document. -/
theorem document_spaceAfter_of_detached (h : t.Sound) (hn : n ∉ t.document.ids)
    (hx : x.isEmpty = false) (hok : (t.spaceAfter n x).failure = none) :
    (t.spaceAfter n x).tree.document = t.document := by
  unfold spaceAfter fillGap at hok ⊢
  split at hok
  · next space hspace =>
    obtain ⟨tok, htok, rfl⟩ :=
      Option.map_eq_some_iff.mp (Option.filter_eq_some_iff.mp hspace).1
    have hout := h.not_mem_document_of_mem_tokensAfter hn
      (List.mem_of_mem_head? htok)
    simp only [hx, Bool.false_eq_true, if_false, replaceText]
    split
    · rw [document_congr (record_forest _ _), document_retext h,
        Forest.setText_of_not_mem x hout]
    · rfl
  · simp only [hx, Bool.false_eq_true, if_false] at hok ⊢
    have hu := sound_newToken h x
    obtain ⟨p, i, hp, -, hdoc⟩ := insertAfter_of_success hu hok
    rw [hdoc, document_newToken h]
    rw [← document_newToken h x, ← hu.parent_mem_document_iff hp,
      document_newToken h] at hn
    exact Forest.insertUnder_of_not_mem _ _ hn

/-! ## Moving a node next to a token -/

/-- A tree that is cut off stays what it was. -/
theorem subtree_cut (h : t.Sound) (hi : (t.children p)[i]? = some n) :
    (t.cut n).subtree n = t.subtree n := by
  obtain ⟨s, hs⟩ := Forest.exists_subtree
    (contains_iff_mem.mp (contains_of_childAt h hi).2)
  apply subtree_of_subtree?
  simp only [cut, subtree_of_subtree? hs]
  exact Forest.subtree?_place_self (Forest.roots_subtree? hs)
    (Forest.not_mem_remove h.nodup)

/-- A node is never attached next to one below it. -/
theorem Graftable.not_mem_subtree (g : u.Graftable p i n) (h : u.Sound)
    (hz : u.parent? z = some p) :
    z ∉ (u.subtree n).ids := by
  have hout := g.outside
  rw [h.mem_descendants_iff_above g.child_exists, not_or] at hout
  intro hin
  rcases (h.mem_descendants_iff_above g.child_exists).mp hin with rfl | hm
  · rw [g.child_detached] at hz
    cases hz
  · rw [ancestors_of_parent? h.nodup hz] at hm
    rcases List.mem_cons.mp hm with rfl | hm
    · exact hout.1 rfl
    · exact hout.2 hm

/-- A node of the document that was detached is put next to a token of the
document: where that token stands in what is left, and what comes of putting
the node before or behind it. -/
theorem tokens_next_to (h : t.Sound) {z : Token} (hz : z ∈ t.document.tokens)
    (hok : (t.detach n).failure = none)
    (hp : (t.detach n).tree.parent? z.id = some p)
    (hj : (t.detach n).tree.childIndex? z.id = some j)
    (g : (t.detach n).tree.Graftable p i n) :
    (t.detach n).tree.subtree n = t.subtree n ∧ ∃ front back,
      (t.document.remove n).tokens = front ++ z :: back ∧
      (Forest.insertUnder p j (t.subtree n) (t.document.remove n)).tokens =
        front ++ (t.subtree n).tokens ++ z :: back ∧
      (Forest.insertUnder p (j + 1) (t.subtree n)
        (t.document.remove n)).tokens =
        front ++ z :: (t.subtree n).tokens ++ back := by
  obtain ⟨q, k, hk, hforest, hdoc⟩ := detach_of_success h hok
  have hu : (t.detach n).tree.Sound := h.changes (changes_detach t n)
  have hsub : (t.detach n).tree.subtree n = t.subtree n := by
    rw [← subtree_cut h hk, subtree, subtree, hforest]
  -- the token is not among those taken out
  have hout : z.id ∉ (t.subtree n).ids := hsub ▸ g.not_mem_subtree hu hp
  have hztree := (Forest.mem_tokens_iff h.nodup_document).mp hz
  have hz' : (t.document.remove n).subtree? z.id =
      some (.token z.id z.kind z.text .nil) := by
    by_cases hn : n ∈ t.document.ids
    · have hs := h.subtree?_document hn
      have hne : z.id ≠ n := by
        rintro rfl
        exact hout (Forest.mem_ids_of_roots_eq (Forest.roots_subtree? hs))
      rw [Forest.subtree?_remove h.nodup_document hs hout, hztree]
      simp [Forest.remove, hne]
    · rwa [Forest.remove_of_not_mem hn]
  rw [← hdoc] at hz'
  have hzmem := Forest.mem_of_subtree? hz'
  obtain ⟨front, s, back, ha⟩ := Forest.exists_around hzmem
  have hs : s = .token z.id z.kind z.text .nil :=
    Option.some.inj (ha.subtree?.symm.trans hz')
  subst hs
  have hchild : ((t.detach n).tree.document.offspring p).roots[j]? =
      some z.id := by
    rw [hu.offspring_document ((hu.parent_mem_document_iff hp).mpr hzmem)]
    exact childAt_of_childIndex? hp hj
  obtain ⟨hbefore, hafter⟩ :=
    ha.tokens_insertUnder (x := t.subtree n) hu.nodup_document hchild
  have htokens := ha.tokens_eq
  rw [hdoc] at hbefore hafter htokens
  refine ⟨hsub, front, back, ?_, ?_, ?_⟩
  · simpa [Forest.tokens] using htokens
  · simpa [Forest.tokens] using hbefore
  · simpa [Forest.tokens] using hafter

/-- A node that is moved next to a token: its tokens stand before that token
or behind it, and the others stay in their order. -/
theorem tokens_moveBeside {k : Nat} (hk : k ≤ 1) (h : t.Sound) {z : Token}
    (hz : z ∈ t.document.tokens)
    (hok : (t.moveBeside k n z.id).failure = none) :
    ∃ p i front back,
      (t.moveBeside k n z.id).tree.document =
        Forest.insertUnder p i (t.subtree n) (t.document.remove n) ∧
      (t.document.remove n).tokens = front ++ z :: back ∧
      (t.moveBeside k n z.id).tree.document.tokens =
        front ++ [z].take k ++ (t.subtree n).tokens ++ [z].drop k ++ back := by
  obtain ⟨hdetach, hmove⟩ := andThen_of_success hok
  have hu : (t.detach n).tree.Sound := h.changes (changes_detach t n)
  obtain ⟨-, -, -, -, hdoc⟩ := detach_of_success h hdetach
  rw [moveBeside, hmove] at hok ⊢
  unfold insertBeside at hok ⊢
  split at hok
  · next p j hp hj =>
    obtain ⟨g, hfinal⟩ := insertChild_of_success hu hok
    obtain ⟨hsub, front, back, hrest, hbefore, hafter⟩ :=
      tokens_next_to h hz hdetach hp hj g
    rw [hdoc, hsub] at hfinal
    refine ⟨p, j + k, front, back, hfinal, hrest, ?_⟩
    rw [hfinal]
    rcases Nat.le_one_iff_eq_zero_or_eq_one.mp hk with rfl | rfl
    · simpa using hbefore
    · simpa using hafter
  · cases hok

/-- **Moved behind a token,** a tree stands right behind it in the list of
tokens, and the rest is as it was. -/
theorem tokens_moveAfter (h : t.Sound) {z : Token}
    (hz : z ∈ t.document.tokens)
    (hok : (t.moveAfter n z.id).failure = none) :
    ∃ p i front back,
      (t.moveAfter n z.id).tree.document =
        Forest.insertUnder p i (t.subtree n) (t.document.remove n) ∧
      (t.document.remove n).tokens = front ++ z :: back ∧
      (t.moveAfter n z.id).tree.document.tokens =
        front ++ z :: (t.subtree n).tokens ++ back := by
  rw [moveAfter_eq] at hok ⊢
  simpa using tokens_moveBeside (Nat.le_refl 1) h hz hok

/-- **Moved in front of a token,** it stands right in front of it. -/
theorem tokens_moveBefore (h : t.Sound) {z : Token}
    (hz : z ∈ t.document.tokens)
    (hok : (t.moveBefore n z.id).failure = none) :
    ∃ p i front back,
      (t.moveBefore n z.id).tree.document =
        Forest.insertUnder p i (t.subtree n) (t.document.remove n) ∧
      (t.document.remove n).tokens = front ++ z :: back ∧
      (t.moveBefore n z.id).tree.document.tokens =
        front ++ (t.subtree n).tokens ++ z :: back := by
  rw [moveBefore_eq] at hok ⊢
  simpa using tokens_moveBeside (Nat.zero_le 1) h hz hok

end TreeLint.Tree
