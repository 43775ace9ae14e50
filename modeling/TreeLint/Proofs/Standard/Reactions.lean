import TreeLint.Proofs.Standard.Resting
import TreeLint.Proofs.Standard.Stable
import TreeLint.Proofs.Lint.Sure
import TreeLint.Proofs.Tree.Moved
import TreeLint.Proofs.Tree.Reaction

/-!
# Declarations and operators

In a file whose operators are tokens every correction of a declaration or an
operator succeeds, and does no more to the document than a walk can bear
(`Tree.Reaction`). White space in front of a declaration leaves all code
where it is. So does a binary operator that is moved together with the node
around it. An operator on its own is put behind code that came before it,
and a call operator ahead of it, to rest there.

That a correction succeeds is read off its plan (`Plan.sure_reaction`).

Specification, §13.
-/

namespace TreeLint

variable {σ : Type} {t u v : Tree} {ops : List Op} {n newline : NodeId}
  {atoms : Kind → Bool} {rests : Forest → NodeId → Prop}

open TreeLint.Tree (Reaction Lands Behind)

/-! ## Plans that are ready -/

theorem Fix.run_ofOps (memory : σ) (h : Op.Succeed ops t u) :
    (Fix.ofOps memory ops).run t = (u, .finished memory none) := by
  induction h with
  | nil => rfl
  | @cons op ops t u hop _ ih =>
    simp only [Fix.ofOps, Fix.run]
    cases hreply : (op.apply t).2 with
    | failed error => exact absurd hreply (hop error)
    | done | created | opened => exact ih

/-- **A plan that is ready leads to what it would achieve,** or leaves
things as they are if it is denied. -/
theorem Plan.sure_correct {post : Tree → Prop} (h : Plan t ops)
    (ht : t.Consistent) (hready : ∀ op ∈ ops, op.Ready t) (hdeny : post t)
    (hallow : ∀ u, Op.Succeed ops t.begin u → post (u.commit t.checkpoint))
    (offset : Nat) (message : String) (memory : σ) :
    (Hook.correct offset message ops memory).Sure post t := by
  obtain ⟨u, hu⟩ :=
    (h.succeeds_iff ht.begin ⟨ht.sound, ht.begin.sound, rfl⟩).mpr hready
  exact Hook.sure_correct offset message hdeny (Fix.run_ofOps memory hu)
    (hallow u hu)

/-- A correction that is ready, and reacts as it may once it has succeeded. -/
theorem Plan.sure_reaction (h : Plan t ops) (ht : t.Tidy atoms)
    (hn : n ∈ t.document.ids) (hready : ∀ op ∈ ops, op.Ready t)
    (hreact : ∀ u, Op.Succeed ops t.begin u → Reaction rests n t.begin u)
    (offset : Nat) (message : String) (memory : σ) :
    (Hook.correct offset message ops memory).Sure (Reaction rests n t) t := by
  refine h.sure_correct ht.consistent hready ?_ (fun u hu => ?_) offset
    message memory
  · exact .of_document_eq ht.sound ht.sound rfl (Nat.le_refl _)
  · exact (hreact u hu).closed ht (hu.consistent ht.consistent.begin).sound hn _

/-- White space is edited by the first of some operations: what is white
space stays so for the rest. -/
theorem Op.Succeed.steady_cons {op : Op} {z : NodeId} {x : String}
    (hv : v.Tidy atoms) (hz : Tree.Respaced z x v (op.apply v).1)
    (hok : ∀ error, (op.apply v).2 ≠ .failed error)
    (hspace : ∀ m, Op.detach m ∈ op :: ops → v.hasKind m .whitespace = true)
    (hrest : (op.apply v).1.Tidy atoms →
      (∀ m, Op.detach m ∈ ops → (op.apply v).1.hasKind m .whitespace = true) →
      (op.apply v).1.Steady (fun _ => False) u) :
    v.Steady (fun _ => False) u := by
  have hone : Op.Succeed [op] v (op.apply v).1 := .cons hok (.nil _)
  have hcons := hone.consistent hv.consistent
  have hfirst : v.Steady (fun _ => False) (op.apply v).1 := hz.steady hv.sound
  refine hfirst.trans (hrest (hv.steady hfirst hcons) fun m hm => ?_) hv.sound
  exact (hone.keepsKinds hv.consistent).hasKind hv.sound hcons.sound
    (hspace m (List.mem_cons_of_mem _ hm))

/-- Putting white space next to nodes and detaching white space leaves code
where it is. -/
theorem Plain.steady (h : Plain t ops) (hv : v.Tidy atoms)
    (hsub : t.document.ids ⊆ v.document.ids)
    (hspace : ∀ m, Op.detach m ∈ ops → v.hasKind m .whitespace = true)
    (hrun : Op.Succeed ops v u) :
    v.Steady (fun _ => False) u := by
  induction h generalizing v with
  | nil =>
    cases hrun
    exact .refl hv.sound
  | @detach m hm =>
    obtain _ | ⟨hok, ⟨⟩⟩ := hrun
    have hk := beq_iff_eq.mp (hspace m (by simp))
    have hleaf := hv.isLeaf_of_kind (hsub hm) hk rfl
    exact (Tree.respaced_detach hv.sound (hsub hm) hk hleaf
      (Edited.failure_eq_none hok) " ").steady hv.sound
  | @spaceBefore m x ops hm hx _ ih =>
    obtain _ | ⟨hok, hrest⟩ := hrun
    obtain ⟨z, hz, -⟩ := Tree.respaced_spaceBefore hv.sound (hsub hm) hx
      (Edited.failure_eq_none hok)
    have hsub' := List.Subset.trans hsub
      (Tree.document_subset_spaceBefore hv.sound m hx)
    exact Op.Succeed.steady_cons hv hz hok hspace fun hv' hspace' =>
      ih hv' hsub' hspace' hrest
  | @spaceAfter m x ops hm hx _ ih =>
    obtain _ | ⟨hok, hrest⟩ := hrun
    obtain ⟨z, hz, -⟩ := Tree.respaced_spaceAfter hv.sound (hsub hm) hx
      (Edited.failure_eq_none hok)
    have hsub' := List.Subset.trans hsub
      (Tree.document_subset_spaceAfter hv.sound m hx)
    exact Op.Succeed.steady_cons hv hz hok hspace fun hv' hspace' =>
      ih hv' hsub' hspace' hrest

namespace Standard

/-- The kinds of operators that the rules move or put on a line of their own. -/
def isOperator (k : Kind) : Bool :=
  ChainWrapping.opensLine k || ChainWrapping.closesLine k

theorem kindIs_of_hasKind {k : Kind} {test : Kind → Bool}
    (hk : t.hasKind n k = true) (htest : test k = true) :
    t.kindIs n test = true := by
  rw [Tree.kindIs, beq_iff_eq.mp hk, Option.any_some]
  exact htest

theorem kindIs_eq_false {p q : Kind → Bool} (hk : t.kindIs n p = true)
    (h : ∀ k, p k = true → q k = false) :
    t.kindIs n q = false := by
  obtain ⟨k, hkind, hp⟩ := kind_of_kindIs hk
  rw [Tree.kindIs, Tree.kind?, hkind, Option.any_some]
  exact h k hp

/-! ## A blank line before declarations -/

namespace BlankLine

/-- White space before a declaration is a reaction to it. -/
theorem reaction {x : String} (ht : t.Tidy isOperator) (hn : n ∈ t.document.ids)
    (hk : t.kindIs n Kind.isDeclaration = true) (hx : x.isEmpty = false)
    (h : Op.Succeed [.spaceBefore n x] t u) :
    Reaction Resting n t u := by
  have hu := h.consistent ht.consistent
  obtain _ | ⟨hok, ⟨⟩⟩ := h
  obtain ⟨z, hz, hzn, -⟩ :=
    Tree.respaced_spaceBefore ht.sound hn hx (Edited.failure_eq_none hok)
  have hcode : t.IsCode n :=
    ⟨hn, kindIs_eq_false hk fun k => by cases k <;> decide⟩
  have hs : t.Steady (fun _ => False) (t.spaceBefore n x).tree :=
    hz.steady ht.sound
  refine .of_steady hs ht.sound hu.sound (ht.ne_root hk rfl) hcode
    (not_resting_of_kind ht.sound hk ⟨rfl, rfl⟩) ?_
  -- the white space comes before the declaration, so it is not behind what
  -- follows
  intro m hm hnm hrest
  have hnm' := (hs.precedes_iff ht.sound hu.sound hcode hm id id).mpr hnm
  exact resting_of_respaced ht.sound hz
    (Or.inr ((hzn.trans hnm' hu.sound.nodup_document).asymm
    hu.sound.nodup_document)) hrest

/-- So the rule reacts as it may, at every node. -/
theorem sure_before (ht : t.Tidy isOperator) (hn : n ∈ t.document.ids)
    (memory : σ) :
    (before n memory).Sure (Reaction Resting n t) t := by
  rw [before, Hook.sure_inspect]
  split
  · next h =>
    have hk : t.kindIs n Kind.isDeclaration = true := by
      simp only [lacksBlankLine, Bool.and_eq_true] at h
      exact h.1.1
    have hx : ("\n" ++ t.indent n).isEmpty = false := by
      simp [String.isEmpty_eq_false_iff]
    refine (Plan.plain (.spaceBefore hn hx .nil)).sure_reaction ht hn ?_
      (fun u hu => ?_) _ _ memory
    · simpa [Op.Ready] using ht.ne_root hk rfl
    · exact reaction (t := t.begin) ⟨ht.consistent.begin, ht.file,
        ht.atomic⟩ hn hk hx hu
  · exact .of_document_eq ht.sound ht.sound rfl (Nat.le_refl _)

end BlankLine

/-! ## Operators -/

/-- Tokens of code that come in the same order in both files. -/
theorem precedes_of_code_eq (hu : u.Sound) (hcode : u.code = t.code)
    {x y : NodeId} (hx : u.IsCode x) (hxl : u.isLeaf x = true) (hy : u.IsCode y)
    (hyl : u.isLeaf y = true) (h : u.document.Precedes x y) :
    t.document.Precedes x y := by
  have hsub : ∀ t : Tree, (t.code.map Token.id).Sublist t.document.ids :=
      fun t =>
    (List.filter_sublist.map Token.id).trans (Forest.map_id_tokens_sublist _)
  have hmem : ∀ {m}, u.IsCode m → u.isLeaf m = true →
      m ∈ u.code.map Token.id := by
    intro m hm hleaf
    obtain ⟨k, y, hkind, -, hs⟩ := Tree.document_subtree_of_token hu hm.1 hleaf
    have htok : (⟨m, k, y⟩ : Token) ∈ u.document.tokens :=
      (Forest.mem_tokens_iff hu.nodup_document).mpr hs
    have htrivia := hm.2
    rw [Tree.kindIs, hkind, Option.any_some] at htrivia
    exact List.mem_map_of_mem (List.mem_filter.mpr ⟨htok, by simp [htrivia]⟩)
  have hpair := h.of_sublist hu.nodup_document (hsub u) (hmem hx hxl)
    (hmem hy hyl)
  rw [hcode] at hpair
  exact hpair.trans (hsub t)

/-- White space and comments are tokens. -/
theorem atomic_trivia (ht : t.Tidy atoms) : t.document.Atomic Kind.isTrivia :=
  fun l hl htest => ht.atomic l hl (by simp [htest])

theorem isOperator_token (ht : t.Tidy isOperator) (hn : n ∈ t.document.ids)
    (hk : t.kindIs n isOperator = true) :
    t.IsCode n ∧ t.isLeaf n = true ∧ n ≠ Tree.root := by
  refine ⟨⟨hn, kindIs_eq_false hk fun k => by cases k <;> decide⟩, ?_,
    ht.ne_root hk rfl⟩
  obtain ⟨k, hkind, htest⟩ := kind_of_kindIs hk
  exact ht.isLeaf_of_kind hn hkind (by simp [htest])

namespace ChainWrapping

/-! ### Operators that open a line -/

theorem isOperator_of_opensLine (hk : t.kindIs n opensLine = true) :
    t.kindIs n isOperator = true :=
  kindIs_mono hk fun k hk => by simp [isOperator, hk]

theorem isCall_of_opensLine (hk : t.kindIs n opensLine = true)
    (helvis : t.hasKind n .elvis = false) :
    t.kindIs n (fun k => k == .dot || k == .safeAccess) = true := by
  obtain ⟨k, hkind, hopens⟩ := kind_of_kindIs hk
  rw [Tree.hasKind, Tree.kind?, hkind] at helvis
  rw [Tree.kindIs, Tree.kind?, hkind, Option.any_some]
  revert hopens helvis
  cases k <;> decide

section OpensLine

variable (ht : t.Tidy isOperator) (hn : n ∈ t.document.ids)
  (hk : t.kindIs n opensLine = true) (hbreak : breakAfter? t n = some newline)

include ht hn hk hbreak

/-- A call operator goes ahead, past white space and comments, to rest. -/
theorem lands_moveAfter (helvis : t.hasKind n .elvis = false)
    (hok : (t.moveAfter n newline).failure = none) :
    Lands Resting n t (t.moveAfter n newline).tree := by
  have hdot := isCall_of_opensLine hk helvis
  obtain ⟨hcode, hleaf, -⟩ :=
    isOperator_token ht hn (isOperator_of_opensLine hk)
  have hb := breakAfter_mem_document ht.sound hn hbreak
  have hatomic := atomic_trivia ht
  obtain ⟨hsteady, -⟩ := Tree.steady_moveAfter ht.sound hn hleaf hb hok
  have hu : (t.moveAfter n newline).tree.Sound :=
    (ht.consistent.apply (.moveAfter n newline)).sound
  have hmovable : t.kindIs n isMovable = true := kindIs_mono hdot fun k => by
    cases k <;> decide
  have hkept :=
    (hop_openLine ht.sound hatomic hn hmovable hbreak hok).rearranged
      ht.sound.nodup_document hatomic
  refine ⟨hsteady, fun y hy hyl hyn => ?_, fun hrest => ?_, Or.inr (Or.inr ?_)⟩
  · exact precedes_of_code_eq hu hkept.code hy hyl (hsteady.isCode hcode)
      ((hsteady.isLeaf hcode).trans hleaf) hyn
  · rw [breakAfter?_of_resting ht.sound hatomic hrest] at hbreak
    cases hbreak
  · exact resting_openLine ht.sound hatomic hn hleaf hdot hbreak hok

/-- An operator taken to the next line is a reaction to it: a call operator
rests there, the other one stays in place. -/
theorem reaction_openLine {indentation : Indentation}
    (h : Op.Succeed (openLine indentation t n newline) t u) :
    Reaction Resting n t u := by
  obtain ⟨hcode, hleaf, hroot⟩ :=
    isOperator_token ht hn (isOperator_of_opensLine hk)
  refine .of_lands ?_ hroot hcode hleaf
  have hu := h.consistent ht.consistent
  have hplan : Plan t (openLine indentation t n newline) :=
    plan_openLine hn (breakAfter_mem_document ht.sound hn hbreak) indentation
  unfold openLine at h hplan
  split at h
  · next helvis =>
    rw [if_pos helvis] at hplan
    cases hplan with
    | plain hplain =>
      have hs := hplain.steady ht (List.Subset.refl _) (by simp) h
      refine .of_steady hs ht.sound hu.sound hcode fun hrest => absurd hrest ?_
      have hkind : t.kindIs n (· == .elvis) = true :=
        kindIs_of_hasKind helvis rfl
      exact not_resting_of_kind ht.sound hkind ⟨rfl, rfl⟩
  · next helvis =>
    obtain _ | ⟨hok, ⟨⟩⟩ := h
    exact lands_moveAfter ht hn hk hbreak (Bool.eq_false_iff.mpr helvis)
      (Edited.failure_eq_none hok)

/-- Each edit of that correction is ready. -/
theorem ready_openLine (indentation : Indentation) :
    ∀ op ∈ openLine indentation t n newline, op.Ready t := by
  obtain ⟨hcode, hleaf, hroot⟩ :=
    isOperator_token ht hn (isOperator_of_opensLine hk)
  unfold openLine
  split
  · simp [Op.Ready, hroot]
  · have hspace : t.hasKind newline .whitespace = true := by
      obtain ⟨-, hnewline⟩ := Option.filter_eq_some_iff.mp hbreak
      simp only [Tree.isBreak, Bool.and_eq_true] at hnewline
      exact hnewline.1.1
    have htrivia : t.kindIs newline Kind.isTrivia = true :=
      kindIs_of_hasKind hspace rfl
    have hne : newline ≠ n := by
      rintro rfl
      simp [hcode.2] at htrivia
    simpa [Op.Ready, hroot, Tree.descendants_of_leaf hleaf, hne]
      using ht.ne_root htrivia rfl

end OpensLine

/-! ### Operators that close a line -/

theorem isOperator_of_closesLine (hk : t.kindIs n closesLine = true) :
    t.kindIs n isOperator = true :=
  kindIs_mono hk fun k hk => by simp [isOperator, hk]

/-- The code before a line break in front of an operator comes before the
operator. -/
theorem code_before (h : t.Sound) (ha : t.document.Atomic Kind.isTrivia)
    (hn : n ∈ t.document.ids) (hprev : t.prevLeaf? n = some newline)
    {insertion : NodeId} (hcode : t.prevCodeLeaf? newline = some insertion) :
    t.IsCode insertion ∧ t.isLeaf insertion = true ∧
      t.document.Precedes insertion n := by
  obtain ⟨pre, post, har⟩ := h.around hn
  have htokens := har.tokens_eq
  rw [Tree.prevLeaf?, (h.tokens_of_around har).1] at hprev
  obtain ⟨pre, br, rfl, rfl⟩ := exists_last hprev
  have hsplit : t.document.tokens =
      pre ++ br :: ((t.subtree n).tokens ++ post) := by simp [htokens]
  rw [Tree.prevCodeLeaf?, (h.tokens_of_around (h.around_of_tokens hsplit)).1]
    at hcode
  obtain ⟨gap, tok, back, hpre, rfl, -, htok⟩ :=
    exists_first_code h ha
      (fun x hx => by simp [hsplit, List.mem_reverse.mp hx]) hcode
  have hin : tok ∈ pre := List.mem_reverse.mp (by simp [hpre])
  obtain ⟨hmem, hkind, htext⟩ :=
    h.of_mem_tokens (show tok ∈ t.document.tokens by simp [hsplit, hin])
  refine ⟨⟨hmem, ?_⟩, ?_, har.precedes_of_mem_pre (List.mem_append_left _ hin)⟩
  · rw [Tree.kindIs, hkind, Option.any_some]
    exact htok
  · rw [Tree.isLeaf, htext]
    rfl

/-- A token that is the next sibling of code that came before it was put
behind it. -/
theorem behind_of_children (hu : u.Sound) {p z : NodeId} {as bs : List NodeId}
    (hz : t.IsCode z) (hzl : t.isLeaf z = true) (hzn : t.document.Precedes z n)
    (hin : z ∈ u.document.ids)
    (hkids : u.children p = as ++ z :: n :: bs) : Behind n t u := by
  have hnodup := hu.nodup_document
  have hzp : u.parent? z = some p :=
    hu.parent?_eq_some_iff.mpr (by simp [hkids])
  have hnp : u.parent? n = some p :=
    hu.parent?_eq_some_iff.mpr (by simp [hkids])
  have hpdoc := hu.parent_mem_document hin hzp
  have hroots := hu.offspring_document hpdoc
  have hbefore : ∀ {as bs c d}, u.children p = as ++ c :: bs → d ∈ bs →
      u.document.Precedes c d := by
    intro as bs c d hkids hd
    rw [hkids] at hroots
    have hc := hu.child_mem_document hpdoc
      (show c ∈ u.children p by simp [hkids])
    have hsub := hu.subtree?_document hc
    exact Forest.precedes_of_siblings hnodup hroots hsub
      (Forest.mem_ids_of_roots_eq (Forest.roots_subtree? hsub)) hd
  refine ⟨z, hz, hzl, hzn, hnp.trans hzp.symm, fun d hd hne hdp hzd => ?_⟩
  have hdkids := hu.parent?_eq_some_iff.mp (hdp.trans hzp)
  rw [hkids] at hdkids
  rcases List.mem_append.mp hdkids with hd | hd
  · obtain ⟨as₁, as₂, rfl⟩ := List.append_of_mem hd
    have hdz : u.document.Precedes d z :=
      hbefore (hkids.trans (List.append_assoc ..)) (by simp)
    exact absurd hdz (hzd.asymm hnodup)
  · rcases List.mem_cons.mp hd with rfl | hd
    · exact absurd rfl (hzd.ne hnodup)
    · exact hbefore (hkids.trans (List.append_cons ..))
        ((List.mem_cons.mp hd).resolve_left hne)

/-- The operator of a binary expression goes back with the node around it,
past white space and comments only. -/
theorem steady_moveOperation (ht : t.Tidy isOperator) (hn : n ∈ t.document.ids)
    {operation : NodeId} (hparent : t.parent? n = some operation)
    (h :
      Op.Succeed ((((t.prevCodeSibling? operation).bind t.nextSibling?).filter
        (· != operation)).map fun a => Op.moveBefore operation a).toList t u) :
    t.Steady (fun _ => False) u ∧ t.document.ids ⊆ u.document.ids := by
  have hop := ht.sound.parent_mem_document hn hparent
  cases hanchor : ((t.prevCodeSibling? operation).bind t.nextSibling?).filter
      (· != operation) with
  | none =>
    rw [hanchor] at h
    cases h
    exact ⟨.refl ht.sound, List.Subset.refl _⟩
  | some anchor =>
    rw [hanchor] at h
    obtain _ | ⟨hok, ⟨⟩⟩ := h
    have hok := Edited.failure_eq_none hok
    obtain ⟨p, far, near, back, hp, hkids, htrivia⟩ :=
      siblings_of_anchor ht.sound hanchor
    have hpdoc := ht.sound.parent_mem_document hop hp
    have htokens : ∀ m ∈ anchor :: near, t.kindIs m Kind.isTrivia = true ∧
        t.isLeaf m = true := by
      intro m hm
      have hmp : m ∈ t.children p := by
        rw [hkids]
        exact List.mem_append_right _ (List.mem_append_left _ hm)
      exact ⟨htrivia m hm, ht.isLeaf_of_trivia
        (ht.sound.child_mem_document hpdoc hmp) (htrivia m hm)⟩
    exact ⟨Tree.steady_moveBefore ht.sound hop hkids htokens hok,
      (Tree.reattached_among_siblings ht.sound hop hkids hok).ids_subset⟩

/-- A sibling is not below a node. -/
theorem sibling_not_below (h : t.Sound) (hn : n ∈ t.document.ids) {a p : NodeId}
    (hp : t.parent? n = some p) (ha : t.parent? a = some p) (hne : a ≠ n) :
    a ∉ t.descendants n := by
  rw [h.mem_descendants_iff_above (h.contains_document hn)]
  rintro (heq | habove)
  · exact hne heq
  · have hn : n ∈ t.ancestors n := by
      rw [Tree.ancestors_of_parent? h.nodup hp,
        ← Tree.ancestors_of_parent? h.nodup ha]
      exact habove
    exact h.linked.not_own_ancestor n hn

/-- Edits of white space after the operator has moved. -/
theorem lands_plain (ht : t.Tidy isOperator) (hn : n ∈ t.document.ids)
    (hk : t.kindIs n closesLine = true) {first : List Op}
    (hmove : Op.Succeed first t v) (hl : Lands Resting n t v)
    (hsub : t.document.ids ⊆ v.document.ids) (hplain : Plain t ops)
    (hspace : ∀ m, Op.detach m ∈ ops → t.hasKind m .whitespace = true)
    (hrun : Op.Succeed ops v u) :
    Lands Resting n t u := by
  obtain ⟨hcode, -, -⟩ := isOperator_token ht hn (isOperator_of_closesLine hk)
  have hv := hmove.consistent ht.consistent
  have hu := hrun.consistent hv
  have hcode' := hl.steady.isCode hcode
  have hkinds := hmove.keepsKinds ht.consistent
  have hs := hplain.steady (ht.steady hl.steady hv) hsub
    (fun m hm => hkinds.hasKind ht.sound hv.sound (hspace m hm)) hrun
  have hk' : v.kindIs n closesLine = true :=
    (hl.steady.kindIs hn hcode'.1 _).trans hk
  have hlater : Lands Resting n v u := .of_steady hs hv.sound hu.sound hcode'
      fun hrest =>
    absurd hrest (not_resting_of_kind hv.sound hk' ⟨rfl, rfl⟩)
  exact hl.trans hlater ht.sound hv.sound hu.sound hcode

section ClosesLine

variable (ht : t.Tidy isOperator) (hn : n ∈ t.document.ids)
  (hk : t.kindIs n closesLine = true) (hbreak : breakBefore? t n = some newline)

include ht hn hk hbreak

/-- An operator on its own goes back, behind the code on the line before. -/
theorem lands_moveOperator {insertion : NodeId}
    (hcode : t.prevCodeLeaf? newline = some insertion)
    (hok : (t.moveAfter n insertion).failure = none) :
    Lands Resting n t (t.moveAfter n insertion).tree := by
  obtain ⟨hprev, hspace⟩ := breakBefore?_eq_some hbreak
  obtain ⟨hncode, hleaf, -⟩ :=
    isOperator_token ht hn (isOperator_of_closesLine hk)
  have hatomic := atomic_trivia ht
  obtain ⟨hins, hinsl, hprec⟩ := code_before ht.sound hatomic hn hprev hcode
  obtain ⟨hsteady, p, as, bs, hkids⟩ :=
    Tree.steady_moveAfter ht.sound hn hleaf hins.1 hok
  have hu : (t.moveAfter n insertion).tree.Sound :=
    (ht.consistent.apply (.moveAfter n insertion)).sound
  have hmovable : t.kindIs n isMovable = true := kindIs_mono hk fun k hk => by
    simp [isMovable, hk]
  have hkept :=
    (hop_moveOperator ht.sound hatomic hn hmovable hprev hspace hcode
      hok).rearranged
    ht.sound.nodup_document hatomic
  refine ⟨hsteady, fun y hy hyl hyn => ?_, fun hrest => ?_, Or.inr (Or.inl ?_)⟩
  · exact precedes_of_code_eq hu hkept.code hy hyl (hsteady.isCode hncode)
      ((hsteady.isLeaf hncode).trans hleaf) hyn
  · exact absurd hrest (not_resting_of_kind ht.sound hk ⟨rfl, rfl⟩)
  · exact behind_of_children hu hins hinsl hprec (hsteady.isCode hins).1 hkids

/-- An operator taken to the line before is a reaction to it. -/
theorem reaction_closeLine (h : Op.Succeed (closeLine t n newline) t u) :
    Reaction Resting n t u := by
  obtain ⟨hcode, hleaf, hroot⟩ :=
    isOperator_token ht hn (isOperator_of_closesLine hk)
  obtain ⟨-, hspace⟩ := breakBefore?_eq_some hbreak
  have hb := breakBefore_mem_document ht.sound hn hbreak
  have hlast : Plain t ((obsolete? t n newline).map Op.detach).toList :=
    .detach? fun m hm => obsolete_mem_document ht.sound hn hb hm
  have hspaces : ∀ m, Op.detach m ∈
      ((obsolete? t n newline).map Op.detach).toList →
      t.hasKind m .whitespace = true := by
    intro m hm
    exact hasKind_obsolete hspace (by simpa using hm)
  have hstay : ∀ {v}, v.Sound → t.Steady (fun _ => False) v →
      Lands Resting n t v := fun hv hs =>
    .of_steady hs ht.sound hv hcode fun hrest =>
      absurd hrest (not_resting_of_kind ht.sound hk ⟨rfl, rfl⟩)
  refine .of_lands ?_ hroot hcode hleaf
  unfold closeLine at h
  -- The operation moves as a whole or the operator alone, or nothing can be
  -- moved; what follows touches white space only.
  split at h
  · next operation hparent =>
    have hparent := (Option.filter_eq_some_iff.mp hparent).1
    have hop := ht.sound.parent_mem_document hn hparent
    rw [moveOperation, List.append_assoc] at h
    obtain ⟨v, hmove, hrest⟩ := h.append
    obtain ⟨hs, hsub⟩ := steady_moveOperation ht hn hparent hmove
    have hl := hstay (hmove.consistent ht.consistent).sound hs
    exact lands_plain ht hn hk hmove hl hsub (.spaceBefore hop rfl hlast)
      (by simpa using hspaces) hrest
  · unfold moveOperator at h
    split at h
    · next insertion hins =>
      obtain _ | ⟨hok, hrest⟩ := h
      have hl := lands_moveOperator ht hn hk hbreak hins
        (Edited.failure_eq_none hok)
      have hins := ht.sound.prevCodeLeaf_mem_document hb hins
      have hsub :=
        (Tree.putsBeside_insertAfter insertion n).document_subset_move
          ht.sound hn hins
        (Edited.failure_eq_none hok)
      have hmove : Op.Succeed [.moveAfter n insertion] t
          (t.moveAfter n insertion).tree := .cons hok (.nil _)
      exact lands_plain ht hn hk hmove hl hsub (.spaceAfter hins rfl hlast)
        (by simpa using hspaces) hrest
    · exact lands_plain ht hn hk (.nil t) (hstay ht.sound (.refl ht.sound))
        (List.Subset.refl _) hlast hspaces h

/-- Each edit of that correction is ready, too. -/
theorem ready_closeLine : ∀ op ∈ closeLine t n newline, op.Ready t := by
  obtain ⟨hcode, hleaf, hroot⟩ :=
    isOperator_token ht hn (isOperator_of_closesLine hk)
  obtain ⟨hprev, hspace⟩ := breakBefore?_eq_some hbreak
  intro op hop
  -- The edit belongs to the move, or takes out what becomes obsolete.
  rcases List.mem_append.mp hop with hop | hop
  · split at hop
    · next operation hparent =>
      obtain ⟨hparent, hkind⟩ := Option.filter_eq_some_iff.mp hparent
      have hopdoc := ht.sound.parent_mem_document hn hparent
      have hoproot := ht.ne_root_of_hasKind hkind (by decide)
      rcases List.mem_append.mp hop with hop | hop
      · obtain ⟨a, hanchor, rfl⟩ :=
          Option.map_eq_some_iff.mp (Option.mem_toList.mp hop)
        obtain ⟨p, far, near, back, hp, hkids, htrivia⟩ :=
          siblings_of_anchor ht.sound hanchor
        have hap : t.parent? a = some p :=
          ht.sound.parent?_eq_some_iff.mpr (by simp [hkids])
        have hne : a ≠ operation := by
          simpa using (Option.filter_eq_some_iff.mp hanchor).2
        exact ⟨hoproot, ht.ne_root (htrivia a List.mem_cons_self) rfl,
          sibling_not_below ht.sound hopdoc hp hap hne⟩
      · rw [List.mem_singleton.mp hop]
        exact hoproot
    · unfold moveOperator at hop
      split at hop
      · next insertion hins =>
        obtain ⟨hins, hinsl, hprec⟩ :=
          code_before ht.sound (atomic_trivia ht) hn hprev hins
        have hne : insertion ≠ n := hprec.ne ht.sound.nodup_document
        have hinsroot : insertion ≠ Tree.root := by
          rintro rfl
          exact hroot (ht.sound.eq_root_of_leaf hinsl hn)
        have hout : insertion ∉ t.descendants n := by
          simpa [Tree.descendants_of_leaf hleaf] using hne
        simp only [List.mem_cons, List.not_mem_nil, or_false] at hop
        rcases hop with rfl | rfl
        · exact ⟨hroot, hinsroot, hout⟩
        · exact hinsroot
      · cases hop
  · obtain ⟨m, hm, rfl⟩ := Option.map_eq_some_iff.mp (Option.mem_toList.mp hop)
    exact ht.ne_root_of_hasKind (hasKind_obsolete hspace hm) (by decide)

end ClosesLine

/-- So the rule reacts as it may, at every node. -/
theorem sure_before (ht : t.Tidy isOperator) (hn : n ∈ t.document.ids)
    (indentation : Indentation) (memory : σ) :
    (before indentation n memory).Sure (Reaction Resting n t) t := by
  have ht' : t.begin.Tidy isOperator :=
    ⟨ht.consistent.begin, ht.file, ht.atomic⟩
  have hstill : Reaction Resting n t t :=
    .of_document_eq ht.sound ht.sound rfl (Nat.le_refl _)
  rw [before, Hook.sure_inspect]
  split
  · exact hstill
  · split
    · next hk =>
      split
      · exact hstill
      · next newline hbreak =>
        have hplan := plan_openLine hn
          (breakAfter_mem_document ht.sound hn hbreak) indentation
        refine hplan.sure_reaction ht hn
          (ready_openLine ht hn hk hbreak indentation) (fun u hu =>
            ?_) _ _ memory
        exact reaction_openLine (t := t.begin) ht' hn hk hbreak hu
    · split
      · next hk =>
        split
        · exact hstill
        · next newline hbreak =>
          have hplan := plan_closeLine ht.sound hn
            (breakBefore_mem_document ht.sound hn hbreak)
          refine hplan.sure_reaction ht hn (ready_closeLine ht hn hk hbreak)
            (fun u hu => ?_) _ _ memory
          exact reaction_closeLine (t := t.begin) ht' hn hk hbreak hu
      · exact hstill

end ChainWrapping

end Standard

end TreeLint
