import TreeLint.Proofs.Standard.Reactions
import TreeLint.Proofs.Tree.Gaps
import TreeLint.Proofs.Tree.Leaves

/-!
# Line breaks in front of operators

An operator that starts a line is taken to the end of the line before. A
binary operator goes with the node around it, to the code before that node.
Any other operator goes behind the code before the line break. White space
that is left over is taken out afterwards. This module follows the tokens
through such a correction, and reads off them whether a line break still
stands in front of the operator (`breaks_closeLine`).

In three cases one does. If there is no code before a lone operator, it
stays where it is. A line break inside the node of a binary operator is
moved along with it. And if the line break is taken out since there is
another one behind the operator, a token of white space before it may have a
line break as well (`outlasts`).

Specification, §13: operators that must not start a line.
-/

namespace TreeLint

variable {t u v : Tree} {n z operation : NodeId}
  {front back pre post : List Token} {tok br : Token}

/-! ## Tokens of a node -/

namespace Tree.Sound

/-- The tokens below a node. -/
theorem mem_descendants_iff (h : t.Sound) (hop : operation ∈ t.document.ids)
    (htok : tok ∈ t.document.tokens) :
    tok.id ∈ t.descendants operation ↔ tok ∈ (t.subtree operation).tokens := by
  have hs := h.subtree?_document hop
  constructor
  · intro hid
    rw [Forest.mem_tokens_iff (Forest.nodup_remove h.nodup_document hs).1,
      Forest.subtree?_subtree? h.nodup_document hs hid]
    exact (Forest.mem_tokens_iff h.nodup_document).mp htok
  · intro hin
    exact (Forest.map_id_tokens_sublist _).subset (List.mem_map_of_mem hin)

theorem mem_descendants_of_parent (h : t.Sound) (hn : n ∈ t.document.ids)
    (hparent : t.parent? n = some operation) :
    n ∈ t.descendants operation := by
  have hop := h.parent_mem_document hn hparent
  rw [h.mem_descendants_iff_above (h.contains_document hop),
    ancestors_of_parent? h.nodup hparent]
  exact Or.inr List.mem_cons_self

/-- The tokens before a node are not below it. -/
theorem contains_before (h : t.Sound)
    (ha : Forest.Around operation t.document pre (t.subtree operation) post)
    (htok : tok ∈ pre) : (t.descendants operation).contains tok.id = false := by
  have htokens := ha.tokens_eq
  have hmem : tok ∈ t.document.tokens := by simp [htokens, htok]
  rw [← Bool.not_eq_true, List.contains_iff_mem,
    h.mem_descendants_iff ha.mem hmem]
  intro hin
  have hnodup : (pre ++ ((t.subtree operation).tokens ++ post)).Nodup := by
    rw [← List.append_assoc, ← htokens]
    exact (Forest.nodup_tokens h.nodup_document).of_map
  exact List.disjoint_of_nodup_append hnodup htok (List.mem_append_left _ hin)

/-- A node with tokens stands where they stand. -/
theorem around_of_subtree (h : t.Sound) (hop : operation ∈ t.document.ids)
    (hl : t.document.tokens = pre ++ (t.subtree operation).tokens ++ post)
    (htok : tok ∈ (t.subtree operation).tokens) :
    Forest.Around operation t.document pre (t.subtree operation) post := by
  obtain ⟨pre', post', ha⟩ := h.around hop
  obtain ⟨xs, ys, hs⟩ := List.append_of_mem htok
  have htokens := ha.tokens_eq
  have hnodup := Forest.nodup_tokens h.nodup_document
  rw [hs] at hl htokens
  have hcut : t.document.tokens = (pre ++ xs) ++ tok :: (ys ++ post) := by
    simp [hl]
  have hcut' : t.document.tokens = (pre' ++ xs) ++ tok :: (ys ++ post') := by
    simp [htokens]
  obtain ⟨hpre, hpost⟩ := Forest.cut_unique hnodup hcut hcut'
  rwa [List.append_cancel_right hpre, List.append_cancel_left hpost]

end Tree.Sound

namespace Standard

/-! ## Line breaks before a token -/

theorem kind_of_isBreak (hbr : br.isBreak = true) : br.kind = .whitespace := by
  simpa using (Bool.and_eq_true_iff.mp hbr).1

/-- Whether a line break stands in front of a token. -/
theorem breaks_before (h : t.Sound)
    (hl : t.document.tokens = front ++ tok :: back) :
    (t.prevLeaf? tok.id).any t.isBreak = front.getLast?.any Token.isBreak := by
  rw [(h.leaves_of_tokens hl).2, Option.any_map]
  refine any_congr fun a ha => isBreak_token h ?_
  rw [hl]
  exact List.mem_append_left _ (List.mem_of_getLast? ha)

/-- Whether a line break below a node stands in front of a token, if `inner`
are the tokens of the node up to there. -/
theorem breaks_inside {inner rest : List Token} (h : t.Sound)
    (hl : t.document.tokens = front ++ tok :: back)
    (ha : Forest.Around operation t.document pre (t.subtree operation) post)
    (hfront : front = pre ++ inner)
    (hinner : (t.subtree operation).tokens = inner ++ rest) :
    ((t.prevLeaf? tok.id).any fun m =>
      t.isBreak m && (t.descendants operation).contains m) =
      inner.getLast?.any Token.isBreak := by
  rw [(h.leaves_of_tokens hl).2, Option.any_map]
  rcases List.eq_nil_or_concat' inner with rfl | ⟨inner, a, rfl⟩
  · rw [List.append_nil] at hfront
    rw [List.getLast?_nil, Option.any_none, Option.any_eq_false]
    intro a hlast
    show (t.isBreak a.id && (t.descendants operation).contains a.id) = false
    rw [h.contains_before ha (hfront ▸ List.mem_of_getLast? hlast),
      Bool.and_false]
  · have hmem : a ∈ t.document.tokens := by simp [hl, hfront]
    have hbelow : (t.descendants operation).contains a.id = true := by
      rw [List.contains_iff_mem, h.mem_descendants_iff ha.mem hmem, hinner]
      simp
    rw [hfront, ← List.append_assoc, List.getLast?_concat, List.getLast?_concat,
      Option.any_some, Option.any_some]
    show (t.isBreak a.id && (t.descendants operation).contains a.id) = a.isBreak
    rw [hbelow, Bool.and_true, isBreak_token h hmem]

/-- White space that may be detached last, and what is left then. -/
theorem tokens_detach {o : Option NodeId} (hv : v.Tidy isOperator)
    (hz : ∀ z, o = some z → z ∈ v.document.ids ∧ v.hasKind z .whitespace = true)
    (h : Op.Succeed (o.map Op.detach).toList v u) :
    u.document.tokens = v.document.tokens.filter fun tok =>
      o != some tok.id := by
  cases o with
  | none =>
    cases h
    exact (List.filter_eq_self.mpr fun _ _ => rfl).symm
  | some z =>
    obtain ⟨hmem, hkind⟩ := hz z rfl
    obtain _ | ⟨hok, ⟨⟩⟩ := h
    have hok := Edited.failure_eq_none hok
    have hkind := beq_iff_eq.mp hkind
    have hr := Tree.respaced_detach hv.sound hmem hkind
      (hv.isLeaf_of_kind hmem hkind rfl) hok " "
    obtain ⟨-, -, -, -, hdoc⟩ := Tree.detach_of_success hv.sound hok
    have hout : z ∉ (v.detach z).tree.document.ids := by
      rw [hdoc]
      exact Forest.not_mem_remove hv.sound.nodup_document
    have hself : (v.detach z).tree.document.tokens.filter (·.id != z) =
        (v.detach z).tree.document.tokens := by
      rw [List.filter_eq_self]
      intro tok htok
      have hid := (hr.sound.of_mem_tokens htok).1
      simp only [bne_iff_ne]
      rintro rfl
      exact hout hid
    show (v.detach z).tree.document.tokens = _
    rw [← hself, hr.keeps.tokens_filter_ne]
    refine List.filter_congr fun tok _ => ?_
    rw [Bool.eq_iff_iff, bne_iff_ne, bne_iff_ne, ne_eq, ne_eq,
      Option.some.injEq, @eq_comm _ z]

namespace ChainWrapping

/-! ## Where the line break goes -/

/-- The operator of a binary expression goes back past `gap`, and gets a
space in front of it. -/
theorem tokens_after_moveOperation (ht : t.Tidy isOperator)
    (hop : operation ∈ t.document.ids)
    (htok : tok ∈ (t.subtree operation).tokens)
    (h : Op.Succeed (moveOperation t operation) t v) :
    ∃ base gap post front z, Forest.Around operation t.document (base ++ gap)
      (t.subtree operation) post ∧
      v.document.tokens = front ++ ⟨z, .whitespace, " "⟩ ::
        ((t.subtree operation).tokens ++ (gap ++ post)) ∧
      (gap = [] ↔ ((t.prevCodeSibling? operation).bind t.nextSibling?).filter
        (· != operation) = none) ∧
      ((∃ y, base = front ++ [⟨z, .whitespace, y⟩]) ∨
        base = front ∧ z = t.count ∧ ∀ tok, base.getLast? = some tok →
          tok.kind ≠ .whitespace) := by
  obtain ⟨w, hmove, hspace⟩ := h.append
  obtain _ | ⟨hok, ⟨⟩⟩ := hspace
  have hok := Edited.failure_eq_none hok
  cases hanchor : ((t.prevCodeSibling? operation).bind t.nextSibling?).filter
      (· != operation) with
  | none =>
    rw [hanchor] at hmove
    cases hmove
    obtain ⟨pre, post, har⟩ := ht.sound.around hop
    obtain ⟨front, z, hnew, hz⟩ := Tree.tokens_spaceBefore ht.sound har rfl hok
    exact ⟨pre, [], post, front, z, by simpa using har, hnew, by simp, hz⟩
  | some anchor =>
    rw [hanchor] at hmove
    obtain _ | ⟨hmoved, ⟨⟩⟩ := hmove
    have hmoved := Edited.failure_eq_none hmoved
    obtain ⟨-, -, base, gap, post, -, har, hnew, -, hgap⟩ :=
      tokens_moveOperation ht.sound (atomic_trivia ht) hop hanchor hmoved
    obtain ⟨prev, hprev, hnext⟩ :=
      Option.bind_eq_some_iff.mp (Option.filter_eq_some_iff.mp hanchor).1
    have ha : anchor ∈ t.document.ids :=
      ht.sound.nextSibling_mem_document
        (ht.sound.prevCodeSibling_mem_document hop hprev) hnext
    obtain ⟨_, _, -, -, r⟩ :=
      Tree.reattached_moveBeside (Nat.zero_le 1) ht.sound hop ha hmoved
    rw [← Tree.moveBefore_eq] at r
    -- the operator with its tokens is what it was
    have hsplit : (t.moveBefore operation anchor).tree.document.tokens =
        base ++ ((t.moveBefore operation anchor).tree.subtree
            operation).tokens ++ (gap ++ post) := by
      rw [r.subtree, hnew, List.append_assoc]
    have har' := r.sound.around_of_subtree (r.ids_subset hop) hsplit
      (r.subtree.symm ▸ htok)
    obtain ⟨front, z, hnew', hz⟩ := Tree.tokens_spaceBefore r.sound har' rfl hok
    rw [r.subtree] at hnew'
    rw [r.count] at hz
    exact ⟨base, gap, post, front, z, har, hnew', by simp [hgap], hz⟩

section ClosesLine

variable (ht : t.Tidy isOperator)
  (hl : t.document.tokens = front ++ br :: tok :: back)
  (hk : closesLine tok.kind = true) (hbr : br.isBreak = true)

include ht hl hk hbr

/-- A bare operator comes to stand behind some code before the line break,
with a space in between. -/
theorem tokens_after_moveOperator {insertion : NodeId}
    (hcode : t.prevCodeLeaf? br.id = some insertion)
    (h : Op.Succeed [.moveAfter tok.id insertion,
      .spaceAfter insertion " "] t v) :
    ∃ ahead code z rest, v.document.tokens = ahead ++
      [code, ⟨z, .whitespace, " "⟩] ++ tok :: rest ∧
      code ∈ front ∧ code.isBreak = false := by
  obtain _ | ⟨hmoved, hspace⟩ := h
  obtain _ | ⟨hok, ⟨⟩⟩ := hspace
  have hmoved := Edited.failure_eq_none hmoved
  have hok := Edited.failure_eq_none hok
  have hsplit : t.document.tokens = (front ++ [br]) ++ tok ::
      back := by simp [hl]
  have htok := ht.sound.around_of_tokens hsplit
  have hsub := ht.sound.subtree_eq htok
  have hprev : t.prevLeaf? tok.id = some br.id := by
    simp [(ht.sound.leaves_of_tokens hsplit).2]
  have hbrk := kind_of_isBreak hbr
  have hbrmem : br ∈ t.document.tokens := by simp [hl]
  obtain ⟨-, -, ahead, code, gap, post, -, hold, hnew, hgap, hcodek, rfl⟩ :=
    tokens_moveOperator ht.sound
    (atomic_trivia ht) htok.mem hprev ((ht.sound.hasKind_token hbrmem).mpr hbrk)
      hcode hmoved
  have hin : code ∈ front := by
    rw [hsub] at hold
    have hold' : t.document.tokens = (ahead ++ [code] ++ gap) ++ tok ::
        post := by simpa [Forest.tokens] using hold
    obtain ⟨hfront, -⟩ := Forest.cut_unique
      (Forest.nodup_tokens ht.sound.nodup_document) hsplit hold'
    have hmem : code ∈ front ++ [br] := by simp [hfront]
    refine (List.mem_append.mp hmem).resolve_right fun hlast => ?_
    rw [List.mem_singleton.mp hlast, hbrk] at hcodek
    cases hcodek
  have hw : (t.moveAfter tok.id code.id).tree.Sound :=
    (ht.consistent.apply (.moveAfter tok.id code.id)).sound
  rw [hsub] at hnew
  have hnew' : (t.moveAfter tok.id code.id).tree.document.tokens =
      ahead ++ code :: (tok :: (gap ++ post)) := by
    simpa [Forest.tokens] using hnew
  have hcodear := hw.around_of_tokens hnew'
  have hcodesub := hw.subtree_eq hcodear
  rw [← hcodesub] at hcodear
  obtain ⟨z, rest, hfinal, hrest⟩ := Tree.tokens_spaceAfter hw hcodear rfl hok
  refine ⟨ahead, code, z, gap ++ post, ?_, hin, ?_⟩
  · -- the token behind the code is the operator, not white space
    rcases hrest with rfl | ⟨space, hspace, heq⟩
    · rw [hcodesub] at hfinal
      show ((t.moveAfter tok.id code.id).tree.spaceAfter code.id
        " ").tree.document.tokens = _
      simp [hfinal, Forest.tokens]
    · obtain rfl : tok = space := (List.cons.inj heq).1
      rw [hspace] at hk
      cases hk
  · have hne : code.kind ≠ .whitespace := by
      intro hkind
      rw [hkind] at hcodek
      cases hcodek
    simp [Token.isBreak, hne]

end ClosesLine

/-! ### White space that goes -/

/-- Whether a token is left when white space is taken out. -/
def stays (t : Tree) (n newline : NodeId) (tok : Token) : Bool :=
  obsolete? t n newline != some tok.id

section Obsolete

variable (h : t.Sound) (hl : t.document.tokens = front ++ br :: tok :: back)

include h hl

/-- What goes is the line break in front of the operator, or stands behind
it. -/
theorem obsolete_mem {m : NodeId} (hm : obsolete? t tok.id br.id = some m) :
    m ∈ (br :: back).map Token.id := by
  have hsplit : t.document.tokens = (front ++ [br]) ++ tok ::
      back := by simp [hl]
  unfold obsolete? at hm
  rw [(h.leaves_of_tokens hsplit).1] at hm
  cases back with
  | nil => simp at hm
  | cons next back =>
    simp only [List.head?_cons, Option.map_some] at hm
    split_ifs at hm <;> cases hm <;> simp

theorem stays_of_not_mem {a : Token} (ha : a.id ∉ (br :: back).map Token.id) :
    stays t tok.id br.id a = true := by
  unfold stays
  rw [bne_iff_ne]
  intro heq
  exact ha (obsolete_mem h hl heq)

theorem nodup_around :
    (front.map Token.id ++ br.id :: tok.id :: back.map Token.id).Nodup := by
  have hnodup := Forest.nodup_tokens h.nodup_document
  rwa [hl, List.map_append, List.map_cons, List.map_cons] at hnodup

theorem stays_front {a : Token} (ha : a ∈ front) :
    stays t tok.id br.id a = true := by
  refine stays_of_not_mem h hl fun hid => ?_
  refine List.disjoint_of_nodup_append (nodup_around h hl)
    (List.mem_map_of_mem ha) ?_
  rcases List.mem_cons.mp hid with heq | hin
  · rw [heq]
    exact List.mem_cons_self
  · exact List.mem_cons_of_mem _ (List.mem_cons_of_mem _ hin)

theorem filter_stays {xs : List Token} (hxs : xs ⊆ front) :
    xs.filter (stays t tok.id br.id) = xs :=
  List.filter_eq_self.mpr fun _ ha => stays_front h hl (hxs ha)

theorem stays_operator : stays t tok.id br.id tok = true := by
  refine stays_of_not_mem h hl fun hid => ?_
  obtain ⟨hbr, htok⟩ := List.nodup_cons.mp (nodup_around h hl).of_append_right
  rcases List.mem_cons.mp hid with heq | hin
  · exact hbr (heq ▸ List.mem_cons_self)
  · exact (List.nodup_cons.mp htok).1 hin

/-- The line break goes if there is another one behind the operator. -/
theorem stays_break :
    stays t tok.id br.id br = !(t.nextLeaf? tok.id).any t.isBreak := by
  have hsplit : t.document.tokens = (front ++ [br]) ++ tok ::
      back := by simp [hl]
  unfold stays obsolete?
  rw [(h.leaves_of_tokens hsplit).1]
  cases hback : back with
  | nil => rfl
  | cons next rest =>
    simp only [List.head?_cons, Option.map_some, Option.any_some]
    split_ifs with hbreak hinline
    · simp [hbreak]
    · have hne : next.id ≠ br.id := by
        intro heq
        refine (List.nodup_cons.mp (nodup_around h hl).of_append_right).1 ?_
        simp [hback, heq]
      simp [hbreak, hne]
    · simp [hbreak]

end Obsolete

/-! ### The line break afterwards -/

/-- A binary operation that was moved leaves all code in place, and all
nodes attached. -/
theorem steady_after_moveOperation (ht : t.Tidy isOperator)
    (hn : n ∈ t.document.ids) (hparent : t.parent? n = some operation)
    (h : Op.Succeed (moveOperation t operation) t v) :
    t.Steady (fun _ => False) v ∧ t.document.ids ⊆ v.document.ids := by
  obtain ⟨w, hmove, hspace⟩ := h.append
  obtain ⟨hs, hsub⟩ := steady_moveOperation ht hn hparent hmove
  have hw := ht.steady hs (hmove.consistent ht.consistent)
  have hplain : Plain w [.spaceBefore operation " "] :=
    .spaceBefore (hsub (ht.sound.parent_mem_document hn hparent)) rfl .nil
  have hs' := hplain.steady hw (List.Subset.refl _) (by simp) hspace
  refine ⟨hs.trans hs' ht.sound, List.Subset.trans hsub ?_⟩
  rw [hspace.eq_run]
  exact Tree.document_subset_spaceBefore hw.sound operation rfl

/-- An operator that was moved leaves all other code in place, and all nodes
attached. -/
theorem steady_after_moveOperator (ht : t.Tidy isOperator)
    (hn : n ∈ t.document.ids) (hleaf : t.isLeaf n = true) {insertion : NodeId}
    (hins : insertion ∈ t.document.ids)
    (h : Op.Succeed [.moveAfter n insertion, .spaceAfter insertion " "] t v) :
    t.Steady (· = n) v ∧ t.document.ids ⊆ v.document.ids := by
  obtain _ | ⟨hok, hspace⟩ := h
  have hmove : Op.Succeed [.moveAfter n insertion] t
      (t.moveAfter n insertion).tree := .cons hok (.nil _)
  have hok := Edited.failure_eq_none hok
  obtain ⟨hs, -⟩ := Tree.steady_moveAfter ht.sound hn hleaf hins hok
  have hsub := (Tree.putsBeside_insertAfter insertion n).document_subset_move
    ht.sound hn hins hok
  have hw := ht.steady hs (hmove.consistent ht.consistent)
  have hplain : Plain (t.moveAfter n insertion).tree
      [.spaceAfter insertion " "] := .spaceAfter (hsub hins) rfl .nil
  have hs' := hplain.steady hw (List.Subset.refl _) (by simp) hspace
  refine ⟨hs.trans (hs'.mono fun _ hf => hf.elim) ht.sound,
    List.Subset.trans hsub ?_⟩
  rw [hspace.eq_run]
  exact Tree.document_subset_spaceAfter hw.sound insertion rfl

/-- Whether a line break still stands in front of an operator that was taken
to the end of the line before. -/
def outlasts (t : Tree) (n newline : NodeId) : Bool :=
  -- the line break goes if there is another one behind the operator
  let removed := (t.nextLeaf? n).any t.isBreak
  match (t.parent? n).filter fun p => t.hasKind p .operationReference with
  | none =>
    (t.prevCodeLeaf? newline).isNone &&
      (!removed || (t.prevLeaf? newline).any t.isBreak)
  | some operation =>
    if (t.descendants operation).contains newline then
      !removed || (t.prevLeaf? newline).any fun m =>
        t.isBreak m && (t.descendants operation).contains m
    else
      (((t.prevCodeSibling? operation).bind t.nextSibling?).filter
        (· != operation)).isNone && removed &&
        (t.prevLeaf? newline).any t.isBreak

section Afterwards

variable (ht : t.Tidy isOperator)
  (hl : t.document.tokens = front ++ br :: tok :: back)
  (hk : closesLine tok.kind = true) (hbr : br.isBreak = true)

include ht hl hbr

/-- Once the operator stands behind `pre`, and the white space that is left
over has gone. -/
theorem breaks_of_detach (hv : v.Tidy isOperator)
    (hsub : t.document.ids ⊆ v.document.ids) (hkinds : t.KeepsKinds v)
    (hvl : v.document.tokens = pre ++ tok :: post)
    (h : Op.Succeed ((obsolete? t tok.id br.id).map Op.detach).toList v u) :
    v.Steady (fun _ => False) u ∧ (u.prevLeaf? tok.id).any u.isBreak =
      (pre.filter (stays t tok.id br.id)).getLast?.any Token.isBreak := by
  have hn : tok.id ∈ t.document.ids := (ht.sound.of_mem_tokens (by simp [hl])).1
  have hbrmem : br ∈ t.document.tokens := by simp [hl]
  have hspace : t.hasKind br.id .whitespace = true :=
    (ht.sound.hasKind_token hbrmem).mpr (kind_of_isBreak hbr)
  have hz : ∀ z, obsolete? t tok.id br.id = some z → z ∈ v.document.ids ∧
      v.hasKind z .whitespace = true := by
    intro z hz
    refine ⟨hsub (obsolete_mem_document ht.sound hn
      (ht.sound.of_mem_tokens hbrmem).1 hz), ?_⟩
    exact hkinds.hasKind ht.sound hv.sound (hasKind_obsolete hspace hz)
  constructor
  · have hplain : Plain v ((obsolete? t tok.id br.id).map Op.detach).toList :=
      .detach? fun z h => (hz z h).1
    exact hplain.steady hv (List.Subset.refl _) (fun m hm =>
      (hz m (by simpa using hm)).2) h
  · have htokens : u.document.tokens =
        v.document.tokens.filter (stays t tok.id br.id) := tokens_detach hv hz h
    rw [hvl, List.filter_append,
      List.filter_cons_of_pos (stays_operator ht.sound hl)] at htokens
    exact breaks_before (h.consistent hv.consistent).sound htokens

/-- Nothing is moved. -/
theorem breaks_of_stay
    (h : Op.Succeed ((obsolete? t tok.id br.id).map Op.detach).toList t u) :
    t.Steady (fun _ => False) u ∧ (u.prevLeaf? tok.id).any u.isBreak =
      (!(t.nextLeaf? tok.id).any t.isBreak || (t.prevLeaf? br.id).any
        t.isBreak) := by
  have hsplit : t.document.tokens = (front ++ [br]) ++ tok ::
      back := by simp [hl]
  obtain ⟨hs, hbreaks⟩ := breaks_of_detach ht hl hbr ht (List.Subset.refl _)
    (.refl t) hsplit h
  refine ⟨hs, ?_⟩
  have hfront := filter_stays ht.sound hl (List.Subset.refl front)
  rw [hbreaks, List.filter_append, hfront, breaks_before ht.sound hl,
    List.filter_singleton, stays_break ht.sound hl]
  cases (t.nextLeaf? tok.id).any t.isBreak with
  | true => simp
  | false => simp [hbr]

/-- A space that is put in or takes the place of a token before the line
break is not taken out. -/
theorem stays_space {space : Token}
    (hspace : space.id = t.count ∨ space.id ∈ front.map Token.id) :
    stays t tok.id br.id space = true := by
  rcases hspace with hnew | hold
  · refine stays_of_not_mem ht.sound hl fun hid => ?_
    obtain ⟨a, ha, heq⟩ := List.mem_map.mp hid
    have hmem : a ∈ t.document.tokens := by
      rw [hl]
      rcases List.mem_cons.mp ha with rfl | ha
      · simp
      · simp [ha]
    have hlt := ht.sound.lt_count (ht.sound.of_mem_tokens hmem).1
    rw [heq, hnew] at hlt
    exact Nat.lt_irrefl _ hlt
  · obtain ⟨a, ha, heq⟩ := List.mem_map.mp hold
    have hstays := stays_front ht.sound hl ha
    unfold stays at hstays ⊢
    rwa [← heq]

include hk in
/-- A bare operator is moved behind code, and is no longer the first on its
line. -/
theorem breaks_of_moveOperator {insertion : NodeId}
    (hcode : t.prevCodeLeaf? br.id = some insertion)
    (h : Op.Succeed (moveOperator t tok.id br.id ++
      ((obsolete? t tok.id br.id).map Op.detach).toList) t u) :
    (u.prevLeaf? tok.id).any u.isBreak = false := by
  have htok : tok ∈ t.document.tokens := by simp [hl]
  obtain ⟨hn, -, htext⟩ := ht.sound.of_mem_tokens htok
  have hleaf : t.isLeaf tok.id = true := by rw [Tree.isLeaf, htext]; rfl
  have hb : br.id ∈ t.document.ids := (ht.sound.of_mem_tokens (by simp [hl])).1
  obtain ⟨v, hmove, hdetach⟩ := h.append
  rw [moveOperator, hcode] at hmove
  obtain ⟨ahead, code, z, rest, hvl, hin, hcodebr⟩ :=
    tokens_after_moveOperator ht hl hk hbr hcode hmove
  obtain ⟨hs, hsub⟩ := steady_after_moveOperator ht hn hleaf
    (ht.sound.prevCodeLeaf_mem_document hb hcode) hmove
  have hv := ht.steady hs (hmove.consistent ht.consistent)
  obtain ⟨-, hbreaks⟩ := breaks_of_detach ht hl hbr hv hsub
    (hmove.keepsKinds ht.consistent) hvl hdetach
  rw [hbreaks, List.filter_append, List.filter_cons_of_pos
    (stays_front ht.sound hl hin), List.filter_singleton]
  cases stays t tok.id br.id ⟨z, .whitespace, " "⟩ with
  | true => simp [Token.isBreak, Tree.hasBreak]
  | false => simp [hcodebr]

/-- The line break is before what is moved: it is passed, or it becomes the
space and goes if it has to. -/
theorem breaks_passed {base gap ahead : List Token}
    (hcut : front ++ [br] = base ++ gap)
    (hz : (∃ y, base = ahead ++ [⟨z, .whitespace, y⟩]) ∨ base = ahead ∧
      z = t.count ∧ ∀ tok, base.getLast? = some tok → tok.kind ≠ .whitespace) :
    ((ahead ++ [(⟨z, .whitespace, " "⟩ : Token)]).filter
      (stays t tok.id br.id)).getLast?.any Token.isBreak =
      (gap.isEmpty && (t.nextLeaf? tok.id).any t.isBreak &&
        front.getLast?.any Token.isBreak) := by
  rcases List.eq_nil_or_concat' gap with rfl | ⟨gap, g, rfl⟩
  · rw [List.append_nil] at hcut
    subst hcut
    rcases hz with ⟨y, hlast⟩ | ⟨-, -, hlast⟩
    · -- the space has the identity of the line break
      obtain ⟨rfl, hbreak⟩ := List.append_inj' hlast rfl
      have hid : z = br.id := by rw [List.singleton_inj.mp hbreak]
      have hsame : stays t tok.id br.id ⟨z, .whitespace, " "⟩ =
          !(t.nextLeaf? tok.id).any t.isBreak := by
        rw [← stays_break ht.sound hl]
        unfold stays
        rw [hid]
      have hfront := filter_stays ht.sound hl (List.Subset.refl front)
      rw [List.filter_append, hfront, List.filter_singleton, hsame]
      cases (t.nextLeaf? tok.id).any t.isBreak with
      | true => simp
      | false => simp [Token.isBreak, Tree.hasBreak]
    · exact absurd (kind_of_isBreak hbr) (hlast br (by simp))
  · rw [← List.append_assoc] at hcut
    obtain ⟨rfl, -⟩ := List.append_inj' hcut rfl
    have hstays : stays t tok.id br.id ⟨z, .whitespace, " "⟩ = true := by
      refine stays_space ht hl hbr ?_
      rcases hz with ⟨y, rfl⟩ | ⟨-, rfl, -⟩
      · exact Or.inr (by simp)
      · exact Or.inl rfl
    rw [List.filter_append, List.filter_singleton, hstays]
    simp [Token.isBreak, Tree.hasBreak]

/-- The line break is inside of what is moved, behind `inner`, and goes
along unless it has to go. -/
theorem breaks_along {base inner ahead : List Token}
    (hcut : front = base ++ inner) (hz : z = t.count ∨ z ∈ base.map Token.id) :
    ((ahead ++ ⟨z, .whitespace, " "⟩ :: (inner ++ [br])).filter
      (stays t tok.id br.id)).getLast?.any Token.isBreak =
      (!(t.nextLeaf? tok.id).any t.isBreak ||
        inner.getLast?.any Token.isBreak) := by
  subst hcut
  have hstays : stays t tok.id br.id ⟨z, .whitespace, " "⟩ = true :=
    stays_space ht hl hbr (hz.imp id
      fun hin => by simp only [List.map_append, List.mem_append, hin, true_or])
  have hinner := filter_stays ht.sound hl (List.subset_append_right base inner)
  rw [List.filter_append, List.filter_cons_of_pos hstays, List.filter_append,
    hinner, List.filter_singleton,
    stays_break ht.sound hl]
  cases (t.nextLeaf? tok.id).any t.isBreak with
  | false =>
    rw [Bool.not_false, cond_true, ← List.cons_append, ← List.append_assoc,
      List.getLast?_concat]
    simp [hbr]
  | true =>
    rw [Bool.not_true, cond_false, List.append_nil]
    rcases List.eq_nil_or_concat' inner with rfl | ⟨inner, a, rfl⟩
    · simp [Token.isBreak, Tree.hasBreak]
    · rw [← List.cons_append, ← List.append_assoc, List.getLast?_concat]
      simp

/-- The operator of a binary expression is moved with the node around it,
and with a line break inside of it. -/
theorem breaks_of_moveOperation (hparent : t.parent? tok.id = some operation)
    (h : Op.Succeed (moveOperation t operation ++
      ((obsolete? t tok.id br.id).map Op.detach).toList) t u) :
    t.Steady (fun _ => False) u ∧ (u.prevLeaf? tok.id).any u.isBreak =
      if (t.descendants operation).contains br.id then
        !(t.nextLeaf? tok.id).any t.isBreak ||
          (t.prevLeaf? br.id).any fun m =>
            t.isBreak m && (t.descendants operation).contains m
      else
        (((t.prevCodeSibling? operation).bind t.nextSibling?).filter
          (· != operation)).isNone &&
          (t.nextLeaf? tok.id).any t.isBreak && (t.prevLeaf? br.id).any
            t.isBreak := by
  have htok : tok ∈ t.document.tokens := by simp [hl]
  have hn := (ht.sound.of_mem_tokens htok).1
  have hop := ht.sound.parent_mem_document hn hparent
  have hbelow : tok ∈ (t.subtree operation).tokens :=
    (ht.sound.mem_descendants_iff hop htok).mp
      (ht.sound.mem_descendants_of_parent hn hparent)
  obtain ⟨v, hmove, hdetach⟩ := h.append
  obtain ⟨base, gap, post, ahead, z, har, hvl, hgap, hz⟩ :=
    tokens_after_moveOperation ht hop hbelow hmove
  obtain ⟨hs, hsub⟩ := steady_after_moveOperation ht hn hparent hmove
  have hv := ht.steady hs (hmove.consistent ht.consistent)
  -- the tokens of the node before the operator
  obtain ⟨inner, rest, hinner⟩ := List.append_of_mem hbelow
  have hvl' : v.document.tokens = (ahead ++ ⟨z, .whitespace, " "⟩ :: inner) ++
      tok :: (rest ++ (gap ++ post)) := by
    simp [hvl, hinner]
  obtain ⟨hs', hbreaks⟩ := breaks_of_detach ht hl hbr hv hsub
    (hmove.keepsKinds ht.consistent) hvl' hdetach
  refine ⟨hs.trans hs' ht.sound, ?_⟩
  have hcut : front ++ [br] = base ++ gap ++ inner := by
    have hold : t.document.tokens = (base ++ gap ++ inner) ++ tok ::
        (rest ++ post) := by simp [har.tokens_eq, hinner]
    have hold' : t.document.tokens = (front ++ [br]) ++ tok ::
        back := by simp [hl]
    exact (Forest.cut_unique (Forest.nodup_tokens ht.sound.nodup_document)
      hold' hold).1
  rw [hbreaks]
  rcases List.eq_nil_or_concat' inner with rfl | ⟨inner, b, rfl⟩
  · rw [List.append_nil] at hcut
    have hout : (t.descendants operation).contains br.id = false :=
      ht.sound.contains_before har (by rw [← hcut]; simp)
    have hnone : gap.isEmpty =
        (((t.prevCodeSibling? operation).bind t.nextSibling?).filter
            (· != operation)).isNone := by
      rw [Bool.eq_iff_iff, List.isEmpty_iff, Option.isNone_iff_eq_none, hgap]
    rw [breaks_passed ht hl hbr hcut hz, hout, breaks_before ht.sound hl, hnone]
    rfl
  · rw [← List.append_assoc] at hcut
    obtain ⟨hfront, hb⟩ := List.append_inj' hcut rfl
    obtain rfl := List.singleton_inj.mp hb
    have hin : (t.descendants operation).contains br.id = true := by
      rw [List.contains_iff_mem,
        ht.sound.mem_descendants_iff hop (by simp [hl]), hinner]
      simp
    have hz' : z = t.count ∨ z ∈ (base ++ gap).map Token.id := by
      rcases hz with ⟨y, rfl⟩ | ⟨-, rfl, -⟩
      · exact Or.inr (by simp)
      · exact Or.inl rfl
    have hinner' : (t.subtree operation).tokens =
        inner ++ br :: tok :: rest := by simp [hinner]
    rw [breaks_along ht hl hbr hfront hz', hin, if_pos rfl,
      breaks_inside ht.sound hl har hfront hinner']

include hk

/-- **Where a line break is left** in front of an operator, and that the
operator is not moved then, unless with the node around it. -/
theorem breaks_closeLine (h : Op.Succeed (closeLine t tok.id br.id) t u) :
    (u.prevLeaf? tok.id).any u.isBreak = outlasts t tok.id br.id ∧
      (outlasts t tok.id br.id = true → t.Steady (fun _ => False) u) := by
  unfold closeLine at h
  unfold outlasts
  cases hparent : (t.parent? tok.id).filter fun p =>
      t.hasKind p .operationReference with
  | some operation =>
    rw [hparent] at h
    obtain ⟨hs, hbreaks⟩ := breaks_of_moveOperation ht hl hbr
      (Option.filter_eq_some_iff.mp hparent).1 h
    exact ⟨hbreaks, fun _ => hs⟩
  | none =>
    rw [hparent] at h
    cases hcode : t.prevCodeLeaf? br.id with
    | some insertion =>
      refine ⟨breaks_of_moveOperator ht hl hk hbr hcode h, fun hout => ?_⟩
      simp at hout
    | none =>
      simp only [moveOperator, hcode, List.nil_append] at h
      obtain ⟨hs, hbreaks⟩ := breaks_of_stay ht hl hbr h
      exact ⟨hbreaks, fun _ => hs⟩

end Afterwards

end ChainWrapping

end Standard

end TreeLint
