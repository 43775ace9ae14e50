import TreeLint.Proofs.Lint.Reformat
import TreeLint.Proofs.Standard.Plan

/-!
# Formatting with the standard rules is stable

The standard rules look at the document only: on two trees with the same
document they ask the same questions, get the same answers and plan the same
corrections. None of them crashes, and none remembers anything. So once
formatting has come to an end by itself, formatting again changes nothing
(`format_stable`).

Specification, §14.
-/

namespace TreeLint.Standard

variable {σ : Type} {t v : Tree} {n newline : NodeId}

/-! ## A blank line before declarations

Each question the rule asks has the same answer on two trees with one
document (`_eq`), down from the questions of `Tree.SameFile`. So the program
goes the same way on both (`repeatable_before`), and it never crashes
(`crashless_before`). The two sections below say the same of the other
rules. -/

namespace BlankLine

theorem isFirstAfterBrace_eq (s : t.SameFile v) (hn : n ∈ t.document.ids) :
    isFirstAfterBrace v n = isFirstAfterBrace t n := by
  unfold isFirstAfterBrace
  rw [s.parent? hn]
  cases hp : t.parent? n with
  | none => rfl
  | some p =>
    have hp := s.left.parent_mem_document hn hp
    have hfirst : (t.childOfKind? p .leftBrace).bind v.nextCodeSibling? =
        (t.childOfKind? p .leftBrace).bind t.nextCodeSibling? :=
      Option.bind_congr fun brace hb =>
        s.nextCodeSibling? (s.left.childOfKind_mem_document hp hb)
    simp only [s.kindIs hp, s.childOfKind? hp, hfirst]

theorem parentIs_eq (s : t.SameFile v) (hn : n ∈ t.document.ids) (k : Kind) :
    parentIs v n k = parentIs t n k := by
  rw [parentIs, parentIs, s.parent? hn]
  exact any_congr fun p hp => s.hasKind (s.left.parent_mem_document hn hp) k

theorem isFirstInLambda_eq (s : t.SameFile v) (hn : n ∈ t.document.ids) :
    isFirstInLambda v n = isFirstInLambda t n := by
  unfold isFirstInLambda
  rw [s.parent? hn]
  cases hp : t.parent? n with
  | none => rfl
  | some block =>
    have hb := s.left.parent_mem_document hn hp
    have hlambda := parentIs_eq s hb .functionLiteral
    have hfirst : (t.children block).find?
        (fun c => !v.kindIs c Kind.isTrivia) =
        (t.children block).find? (fun c => !t.kindIs c Kind.isTrivia) :=
      List.find?_congr fun c hc => by
        rw [s.kindIs (s.left.child_mem_document hb hc)]
    unfold parentIs at hlambda
    simp only [s.hasKind hb, s.children hb, hlambda, hfirst]

theorem followsProperty_eq (s : t.SameFile v) (hn : n ∈ t.document.ids) :
    followsProperty v n = followsProperty t n := by
  rw [followsProperty, followsProperty, s.kindIs hn, s.prevCodeSibling? hn]
  congr 1
  refine any_congr fun prev hprev => ?_
  have hprev := s.left.prevCodeSibling_mem_document hn hprev
  rw [s.kindIs hprev, s.parent? hprev]
  congr 1
  exact any_congr fun p hp => s.kindIs (s.left.parent_mem_document hprev hp) _

theorem isFunctionValue_eq (s : t.SameFile v) (hn : n ∈ t.document.ids) :
    isFunctionValue v n = isFunctionValue t n := by
  have hvalue : ((t.prevCodeSibling? n).any fun prev => v.kindIs prev fun k =>
      k == .equals || k == .returnKeyword) =
      (t.prevCodeSibling? n).any fun prev => t.kindIs prev fun k =>
          k == .equals || k == .returnKeyword :=
    any_congr fun prev hprev =>
      s.kindIs (s.left.prevCodeSibling_mem_document hn hprev) _
  rw [isFunctionValue, isFunctionValue, s.hasKind hn, s.prevCodeSibling? hn,
    hvalue, parentIs_eq s hn]

theorem isExempt_eq (s : t.SameFile v) (hn : n ∈ t.document.ids) :
    isExempt v n = isExempt t n := by
  simp only [isExempt, isFirstAfterBrace_eq s hn, isFirstInLambda_eq s hn,
    followsProperty_eq s hn, s.kindIs hn,
    s.hasKind hn, parentIs_eq s hn, isFunctionValue_eq s hn]

theorem isSeparated_eq (s : t.SameFile v) (hn : n ∈ t.document.ids) :
    isSeparated v n = isSeparated t n := by
  have htext : (t.prevLeaf? n).bind v.tokenText? =
      (t.prevLeaf? n).bind t.tokenText? :=
    Option.bind_congr fun leaf hleaf =>
      s.tokenText? (s.left.prevLeaf_mem_document hn hleaf)
  rw [isSeparated, isSeparated, s.prevLeaf? hn, htext]

theorem lacksBlankLine_eq (s : t.SameFile v) (hn : n ∈ t.document.ids) :
    lacksBlankLine v n = lacksBlankLine t n := by
  rw [lacksBlankLine, lacksBlankLine, s.kindIs hn, isExempt_eq s hn,
    isSeparated_eq s hn]

theorem repeatable_before (hn : n ∈ t.document.ids) (memory : σ) :
    (before n memory).Repeatable t := by
  refine ⟨fun v s => ?_, ?_⟩
  · simp only [lacksBlankLine_eq s hn, s.startOffset hn, s.indent hn]
  · dsimp only
    split
    · exact (Plan.plain (.spaceBefore hn (by simp [String.isEmpty_eq_false_iff])
        .nil)).repeatable_correct _ _ memory
    · trivial

theorem crashless_before (n : NodeId) (memory : σ) :
    (before n memory).Crashless := by
  intro t
  dsimp only
  split
  · exact Hook.crashless_correct ..
  · trivial

end BlankLine

/-! ## Wrapping chains

The corrections are lists of edits that are made from the tree, so they are
compared too, and shown to be plans. What they mention are nodes of the
document. -/

namespace ChainWrapping

theorem isElvisBeforeComment_eq (s : t.SameFile v) (hn : n ∈ t.document.ids) :
    isElvisBeforeComment v n = isElvisBeforeComment t n := by
  rw [isElvisBeforeComment, isElvisBeforeComment, s.hasKind hn, s.nextLeaf? hn]
  congr 1
  refine any_congr fun next hnext => ?_
  have hnext := s.left.nextLeaf_mem_document hn hnext
  rw [s.isInlineSpace hnext, s.inComment hnext]

theorem isSpread_eq (s : t.SameFile v) (hn : n ∈ t.document.ids) :
    isSpread v n = isSpread t n := by
  rw [isSpread, isSpread, s.hasKind hn, s.prevCodeLeaf? hn]
  congr 1
  exact any_congr fun prev hprev =>
    s.kindIs (s.left.prevCodeLeaf_mem_document hn hprev) _

theorem isSign_eq (s : t.SameFile v) (hn : n ∈ t.document.ids) :
    isSign v n = isSign t n := by
  have habove : (t.parent? n).bind v.parent? = (t.parent? n).bind t.parent? :=
    Option.bind_congr fun p hp => s.parent? (s.left.parent_mem_document hn hp)
  rw [isSign, isSign, s.kindIs hn, s.parent? hn, habove]
  congr 1
  refine any_congr fun grandparent hg => ?_
  obtain ⟨p, hp, hg⟩ := Option.bind_eq_some_iff.mp hg
  exact s.hasKind (s.left.parent_mem_document
    (s.left.parent_mem_document hn hp) hg) _

/-- The line break behind an operator is a token of the document. -/
theorem breakAfter_mem_document (h : t.Sound) (hn : n ∈ t.document.ids)
    (hb : breakAfter? t n = some newline) :
    newline ∈ t.document.ids := by
  obtain ⟨code, hcode, hnewline⟩ :=
    Option.bind_eq_some_iff.mp (Option.filter_eq_some_iff.mp hb).1
  exact h.prevLeaf_mem_document (h.nextCodeLeaf_mem_document hn hcode) hnewline

theorem breakAfter_eq (s : t.SameFile v) (hn : n ∈ t.document.ids) :
    breakAfter? v n = breakAfter? t n := by
  have hleaf : (t.nextCodeLeaf? n).bind v.prevLeaf? =
      (t.nextCodeLeaf? n).bind t.prevLeaf? :=
    Option.bind_congr fun code hcode =>
      s.prevLeaf? (s.left.nextCodeLeaf_mem_document hn hcode)
  rw [breakAfter?, breakAfter?, s.nextCodeLeaf? hn, hleaf]
  refine filter_congr fun newline hnewline => ?_
  obtain ⟨code, hcode, hnewline⟩ := Option.bind_eq_some_iff.mp hnewline
  rw [s.isBreak (s.left.prevLeaf_mem_document
    (s.left.nextCodeLeaf_mem_document hn hcode) hnewline),
    isElvisBeforeComment_eq s hn]

theorem openLine_eq (s : t.SameFile v) (hn : n ∈ t.document.ids)
    (indentation : Indentation) (newline : NodeId) :
    openLine indentation v n newline = openLine indentation t n newline := by
  rw [openLine, openLine, s.hasKind hn, s.indent hn]

theorem plan_openLine (hn : n ∈ t.document.ids) (hb : newline ∈ t.document.ids)
    (indentation : Indentation) :
    Plan t (openLine indentation t n newline) := by
  unfold openLine
  split
  · refine .plain (.spaceBefore hn ?_ (.spaceAfter hn rfl .nil))
    simp [String.isEmpty_eq_false_iff, Indentation.childOf, Tree.indent]
  · exact .moveAfter hn hb .nil

theorem breakBefore_mem_document (h : t.Sound) (hn : n ∈ t.document.ids)
    (hb : breakBefore? t n = some newline) :
    newline ∈ t.document.ids := by
  unfold breakBefore? at hb
  split at hb
  · cases hb
  · exact h.prevLeaf_mem_document hn (Option.filter_eq_some_iff.mp hb).1

theorem breakBefore_eq (s : t.SameFile v) (hn : n ∈ t.document.ids) :
    breakBefore? v n = breakBefore? t n := by
  have hbreak : (t.prevLeaf? n).filter v.isBreak =
      (t.prevLeaf? n).filter t.isBreak :=
    filter_congr fun leaf hleaf =>
      s.isBreak (s.left.prevLeaf_mem_document hn hleaf)
  rw [breakBefore?, breakBefore?, isSpread_eq s hn, isSign_eq s hn,
    s.prevLeaf? hn, hbreak]

theorem obsolete_mem_document (h : t.Sound) (hn : n ∈ t.document.ids)
    (hb : newline ∈ t.document.ids) {m : NodeId}
    (hm : obsolete? t n newline = some m) : m ∈ t.document.ids := by
  unfold obsolete? at hm
  split at hm
  · cases hm
  · next next hnext =>
    split at hm
    · cases hm
      exact hb
    · split at hm
      · cases hm
        exact h.nextLeaf_mem_document hn hnext
      · cases hm

theorem obsolete_eq (s : t.SameFile v) (hn : n ∈ t.document.ids)
    (newline : NodeId) :
    obsolete? v n newline = obsolete? t n newline := by
  unfold obsolete?
  rw [s.nextLeaf? hn]
  cases hnext : t.nextLeaf? n with
  | none => rfl
  | some next =>
    have hnext := s.left.nextLeaf_mem_document hn hnext
    simp only [s.isBreak hnext, s.isInlineSpace hnext]

theorem moveOperation_eq (s : t.SameFile v) (hn : n ∈ t.document.ids) :
    moveOperation v n = moveOperation t n := by
  have hanchor : (t.prevCodeSibling? n).bind v.nextSibling? =
      (t.prevCodeSibling? n).bind t.nextSibling? :=
    Option.bind_congr fun prev hprev =>
      s.nextSibling? (s.left.prevCodeSibling_mem_document hn hprev)
  rw [moveOperation, moveOperation, s.prevCodeSibling? hn, hanchor]

theorem moveOperator_eq (s : t.SameFile v) (hb : newline ∈ t.document.ids)
    (n : NodeId) :
    moveOperator v n newline = moveOperator t n newline := by
  rw [moveOperator, moveOperator, s.prevCodeLeaf? hb]

theorem closeLine_eq (s : t.SameFile v) (hn : n ∈ t.document.ids)
    (hb : newline ∈ t.document.ids) :
    closeLine v n newline = closeLine t n newline := by
  have hparent : (t.parent? n).filter
      (fun p => v.hasKind p .operationReference) =
      (t.parent? n).filter (fun p => t.hasKind p .operationReference) :=
    filter_congr fun p hp => s.hasKind (s.left.parent_mem_document hn hp) _
  rw [closeLine, closeLine, s.parent? hn, hparent, obsolete_eq s hn,
    moveOperator_eq s hb]
  congr 1
  split
  · next operation hop =>
    exact moveOperation_eq s
      (s.left.parent_mem_document hn (Option.filter_eq_some_iff.mp hop).1)
  · rfl

/-- The correction is a plan, whichever way the operator goes and whether or
not white space becomes obsolete. -/
theorem plan_closeLine (h : t.Sound) (hn : n ∈ t.document.ids)
    (hb : newline ∈ t.document.ids) :
    Plan t (closeLine t n newline) := by
  have hlast : Plain t ((obsolete? t n newline).map Op.detach).toList :=
    .detach? fun m hm => obsolete_mem_document h hn hb hm
  unfold closeLine
  split
  · next operation hop =>
    have hop := h.parent_mem_document hn (Option.filter_eq_some_iff.mp hop).1
    have hspace : Plain t (.spaceBefore operation " " ::
        ((obsolete? t n newline).map Op.detach).toList) :=
      .spaceBefore hop rfl hlast
    unfold moveOperation
    cases ha : ((t.prevCodeSibling? operation).bind t.nextSibling?).filter
        (· != operation) with
    | none => exact .plain hspace
    | some a =>
      obtain ⟨prev, hprev, hnext⟩ :=
        Option.bind_eq_some_iff.mp (Option.filter_eq_some_iff.mp ha).1
      exact .moveBefore hop (h.nextSibling_mem_document
        (h.prevCodeSibling_mem_document hop hprev) hnext) hspace
  · unfold moveOperator
    split
    · next insertion hins =>
      have hins := h.prevCodeLeaf_mem_document hb hins
      exact .moveAfter hn hins (.spaceAfter hins rfl hlast)
    · exact .plain hlast

theorem repeatable_before (h : t.Sound) (hn : n ∈ t.document.ids)
    (indentation : Indentation) (memory : σ) :
    (before indentation n memory).Repeatable t := by
  refine ⟨fun v s => ?_, ?_⟩
  · simp only [s.inComment hn, s.kindIs hn, breakAfter_eq s hn,
      breakBefore_eq s hn, s.startOffset hn, s.text hn,
      openLine_eq s hn]
    -- The rule says nothing, or reports one of its two corrections.
    split
    · rfl
    · split
      · rfl
      · split
        · split
          · rfl
          · next newline hb =>
              rw [closeLine_eq s hn (breakBefore_mem_document h hn hb)]
        · rfl
  · dsimp only
    split
    · trivial
    · split
      · split
        · trivial
        · next newline hb =>
          exact (plan_openLine hn (breakAfter_mem_document h hn hb)
            indentation).repeatable_correct _ _ memory
      · split
        · split
          · trivial
          · next newline hb =>
            exact (plan_closeLine h hn
              (breakBefore_mem_document h hn hb)).repeatable_correct _ _ memory
        · trivial

theorem crashless_before (indentation : Indentation) (n : NodeId) (memory : σ) :
    (before indentation n memory).Crashless := by
  intro t
  dsimp only
  split
  · trivial
  · split
    · split
      · trivial
      · exact Hook.crashless_correct ..
    · split
      · split
        · trivial
        · exact Hook.crashless_correct ..
      · trivial

end ChainWrapping

/-! ## Spacing of parameter lists -/

namespace ParameterSpacing

variable {space parameter colon : NodeId}

theorem isSingleSpace_eq (s : t.SameFile v) (hn : n ∈ t.document.ids) :
    isSingleSpace v n = isSingleSpace t n := by
  rw [isSingleSpace, isSingleSpace, s.tokenText? hn]

theorem removeSpace_eq (s : t.SameFile v) (hn : n ∈ t.document.ids)
    (memory : σ) :
    removeSpace v n memory = removeSpace t n memory := by
  rw [removeSpace, removeSpace, s.startOffset hn]

theorem makeSingle_eq (s : t.SameFile v) (hn : n ∈ t.document.ids)
    (memory : σ) :
    makeSingle v n memory = makeSingle t n memory := by
  rw [makeSingle, makeSingle, s.startOffset hn]

theorem addSpaceAfter_eq (s : t.SameFile v) (hn : n ∈ t.document.ids)
    (memory : σ) :
    addSpaceAfter v n memory = addSpaceAfter t n memory := by
  rw [addSpaceAfter, addSpaceAfter, s.startOffset hn, s.text hn]

theorem repeatable_removeSpace (hn : n ∈ t.document.ids) (memory : σ) :
    (removeSpace t n memory).Repeatable t :=
  (Plan.plain (.detach hn)).repeatable_correct _ _ memory

theorem repeatable_makeSingle (hn : n ∈ t.document.ids) (memory : σ) :
    (makeSingle t n memory).Repeatable t :=
  (Plan.replaceText " " hn).repeatable_correct _ _ memory

theorem repeatable_addSpaceAfter (hn : n ∈ t.document.ids) (memory : σ) :
    (addSpaceAfter t n memory).Repeatable t :=
  (Plan.plain (.spaceAfter hn rfl .nil)).repeatable_correct _ _ memory

/-! ### Modifiers -/

theorem modifierBefore_mem_document (h : t.Sound) (hn : n ∈ t.document.ids)
    {m : NodeId} (hm : modifierBefore? t n = some m) : m ∈ t.document.ids := by
  unfold modifierBefore? at hm
  split at hm
  · cases hm
  · next prev hprev =>
    have hprev := h.prevCodeSibling_mem_document hn hprev
    split at hm
    · exact h.lastChild_mem_document hprev hm
    · cases hm
      exact hprev

theorem modifierBefore_eq (s : t.SameFile v) (hn : n ∈ t.document.ids) :
    modifierBefore? v n = modifierBefore? t n := by
  unfold modifierBefore?
  rw [s.prevCodeSibling? hn]
  cases hprev : t.prevCodeSibling? n with
  | none => rfl
  | some prev =>
    have hprev := s.left.prevCodeSibling_mem_document hn hprev
    simp only [s.hasKind hprev, s.lastChild? hprev]

theorem endsAnnotationLine_eq (s : t.SameFile v) (hn : n ∈ t.document.ids) :
    endsAnnotationLine v n = endsAnnotationLine t n := by
  rw [endsAnnotationLine, endsAnnotationLine, s.isBreak hn,
    modifierBefore_eq s hn]
  congr 1
  exact any_congr fun m hm =>
    s.hasKind (modifierBefore_mem_document s.left hn hm) _

theorem repeatable_visitModifierSpace (hn : n ∈ t.document.ids) (memory : σ) :
    (visitModifierSpace n memory).Repeatable t := by
  refine ⟨fun v s => ?_, ?_⟩
  · simp only [endsAnnotationLine_eq s hn, isSingleSpace_eq s hn,
      makeSingle_eq s hn]
  · dsimp only
    split
    · trivial
    · exact repeatable_makeSingle hn memory

theorem crashless_visitModifierSpace (n : NodeId) (memory : σ) :
    (visitModifierSpace n memory).Crashless := by
  intro t
  dsimp only
  split
  · trivial
  · exact Hook.crashless_correct ..

theorem modifierSpace_mem_document (h : t.Sound) (hn : n ∈ t.document.ids)
    (hm : space ∈ modifierSpaces t n) :
    space ∈ t.document.ids := by
  unfold modifierSpaces at hm
  split at hm
  · cases hm
  · next modifiers hmods =>
    have hmods := h.childOfKind_mem_document hn hmods
    rcases List.mem_append.mp hm with hm | hm
    · exact h.child_mem_document hmods (List.mem_filter.mp hm).1
    · exact h.nextSibling_mem_document hmods
        (Option.filter_eq_some_iff.mp (Option.mem_toList.mp hm)).1

/-- The white space between modifiers is found by a search from one to the
next, which goes the same way. -/
theorem modifierSpaces_eq (s : t.SameFile v) (hn : n ∈ t.document.ids) :
    modifierSpaces v n = modifierSpaces t n := by
  unfold modifierSpaces
  rw [s.childOfKind? hn]
  cases hmods : t.childOfKind? n .modifierList with
  | none => rfl
  | some modifiers =>
    have hmods := s.left.childOfKind_mem_document hn hmods
    have hwithin : (t.children modifiers).filter
        (fun c => v.hasKind c .whitespace) =
        (t.children modifiers).filter (fun c => t.hasKind c .whitespace) :=
      List.filter_congr fun c hc =>
        s.hasKind (s.left.child_mem_document hmods hc) _
    have hbehind : (t.nextSibling? modifiers).filter (fun c =>
        v.hasKind c .whitespace) =
        (t.nextSibling? modifiers).filter (fun c => t.hasKind c .whitespace) :=
      filter_congr fun c hc =>
        s.hasKind (s.left.nextSibling_mem_document hmods hc) _
    simp only [s.children hmods, s.nextSibling? hmods, hwithin, hbehind]

/-! ### Parameters -/

theorem hasAnnotatedType_eq (s : t.SameFile v) (hn : n ∈ t.document.ids) :
    hasAnnotatedType v n = hasAnnotatedType t n := by
  rw [hasAnnotatedType, hasAnnotatedType, s.childOfKind? hn]
  congr 1
  exact Option.bind_congr fun type htype =>
    s.childOfKind? (s.left.childOfKind_mem_document hn htype) _

/-- Whether a type fits is measured in the document. -/
theorem typeFits_eq (s : t.SameFile v) (hn : n ∈ t.document.ids)
    (limit : Option Nat) :
    typeFits limit v n = typeFits limit t n := by
  have htype : (t.nextCodeSibling? n).filter (fun next =>
      v.hasKind next .typeReference) =
      (t.nextCodeSibling? n).filter (fun next =>
          t.hasKind next .typeReference) :=
    filter_congr fun next hnext =>
      s.hasKind (s.left.nextCodeSibling_mem_document hn hnext) _
  unfold typeFits
  rw [s.nextCodeSibling? hn, htype]
  split
  · next limit type hfound =>
    have hin := s.left.nextCodeSibling_mem_document hn
      (Option.filter_eq_some_iff.mp hfound).1
    have hleaves : v.leaves type = t.leaves type := by
      rw [Tree.leaves, Tree.leaves, s.subtree hin]
    have hwidth : widthBefore v n = widthBefore t n := by
      rw [widthBefore, widthBefore, s.tokensBefore hn]
    simp only [hleaves, hwidth, s.subtree hin, s.tokensAfter hin]
  · rfl

/-- White space before a colon is looked at the same way every time. -/
theorem repeatable_visitBeforeColon (h : t.Sound) (hn : n ∈ t.document.ids)
    (memory : σ) :
    (visitBeforeColon n memory).Repeatable t := by
  refine ⟨fun v s => ?_, ?_⟩
  · have hspace : (t.prevLeaf? n).filter (fun leaf =>
        v.hasKind leaf .whitespace) =
        (t.prevLeaf? n).filter (fun leaf => t.hasKind leaf .whitespace) :=
      filter_congr fun leaf hleaf =>
        s.hasKind (h.prevLeaf_mem_document hn hleaf) _
    dsimp only
    rw [s.prevLeaf? hn, hspace]
    split
    · next space hfound =>
      exact removeSpace_eq s (h.prevLeaf_mem_document hn
        (Option.filter_eq_some_iff.mp hfound).1) memory
    · rfl
  · dsimp only
    split
    · next space hfound =>
      exact repeatable_removeSpace
        (h.prevLeaf_mem_document hn (Option.filter_eq_some_iff.mp hfound).1)
        memory
    · trivial

theorem repeatable_visitAfterColon (h : t.Sound) (limit : Option Nat)
    (hp : parameter ∈ t.document.ids) (hn : colon ∈ t.document.ids)
    (memory : σ) :
    (visitAfterColon limit parameter colon memory).Repeatable t := by
  refine ⟨fun v s => ?_, ?_⟩
  · have hspace : (t.nextLeaf? colon).filter (fun leaf =>
        v.hasKind leaf .whitespace) =
        (t.nextLeaf? colon).filter (fun leaf => t.hasKind leaf .whitespace) :=
      filter_congr fun leaf hleaf =>
        s.hasKind (h.nextLeaf_mem_document hn hleaf) _
    dsimp only
    rw [s.nextLeaf? hn, hspace]
    split
    · exact addSpaceAfter_eq s hn memory
    · next space hfound =>
      have hin := h.nextLeaf_mem_document hn
        (Option.filter_eq_some_iff.mp hfound).1
      rw [s.isBreak hin, hasAnnotatedType_eq s hp, typeFits_eq s hin,
        isSingleSpace_eq s hin, makeSingle_eq s hin]
  · dsimp only
    split
    · exact repeatable_addSpaceAfter hn memory
    · next space hfound =>
      split
      · trivial
      · exact repeatable_makeSingle
          (h.nextLeaf_mem_document hn (Option.filter_eq_some_iff.mp hfound).1)
          memory

theorem repeatable_visitColon (h : t.Sound) (limit : Option Nat)
    (hp : parameter ∈ t.document.ids) (memory : σ) :
    (visitColon limit parameter memory).Repeatable t := by
  refine ⟨fun v s => ?_, ?_⟩
  · simp only [s.childOfKind? hp]
  · dsimp only
    split
    · trivial
    · next colon hcolon =>
      have hin := h.childOfKind_mem_document hp hcolon
      exact (repeatable_visitBeforeColon h hin memory).andThen
        (repeatable_visitAfterColon h limit hp hin)

theorem repeatable_visitParameter (h : t.Sound) (limit : Option Nat)
    (hp : parameter ∈ t.document.ids) (memory : σ) :
    (visitParameter limit parameter memory).Repeatable t := by
  refine ⟨fun v s => ?_, ?_⟩
  · simp only [modifierSpaces_eq s hp]
  · refine Hook.Repeatable.andThen
      (Hook.repeatable_each (fun space hspace memory => ?_) memory)
      (repeatable_visitColon h limit hp)
    exact repeatable_visitModifierSpace
      (modifierSpace_mem_document h hp hspace) memory

theorem crashless_visitColon (limit : Option Nat) (parameter : NodeId)
    (memory : σ) :
    (visitColon limit parameter memory).Crashless := by
  intro t
  dsimp only
  split
  · trivial
  · refine Hook.Crashless.andThen (fun t => ?_) fun memory t => ?_
    · dsimp only
      split
      · exact Hook.crashless_correct ..
      · trivial
    · dsimp only
      split
      · exact Hook.crashless_correct ..
      · split
        · trivial
        · exact Hook.crashless_correct ..

theorem crashless_visitParameter (limit : Option Nat) (parameter : NodeId)
    (memory : σ) :
    (visitParameter limit parameter memory).Crashless :=
  fun _ => (Hook.crashless_each crashless_visitModifierSpace _ memory).andThen
    (crashless_visitColon limit parameter)

/-! ### Lists -/

theorem repeatable_visitSpace (h : t.Sound) (hn : n ∈ t.document.ids)
    (layout : Layout) (seen : Nat) (memory : σ) :
    (visitSpace layout seen n memory).Repeatable t := by
  refine ⟨fun v s => ?_, ?_⟩
  · have hcomma : ((t.nextCodeSibling? n).any fun next =>
        v.hasKind next .comma) =
        (t.nextCodeSibling? n).any fun next => t.hasKind next .comma :=
      any_congr fun next hnext =>
        s.hasKind (h.nextCodeSibling_mem_document hn hnext) _
    simp only [removeSpace_eq s hn, makeSingle_eq s hn, s.isBreak hn,
      isSingleSpace_eq s hn, s.nextCodeSibling? hn,
      hcomma]
  · dsimp only
    split_ifs
    · exact repeatable_removeSpace hn memory
    · exact repeatable_removeSpace hn memory
    · trivial
    · exact repeatable_removeSpace hn memory
    · exact repeatable_makeSingle hn memory
    · trivial

theorem crashless_visitSpace (layout : Layout) (seen : Nat) (n : NodeId)
    (memory : σ) :
    (visitSpace layout seen n memory).Crashless := by
  intro t
  dsimp only
  split_ifs
  · exact Hook.crashless_correct ..
  · exact Hook.crashless_correct ..
  · trivial
  · exact Hook.crashless_correct ..
  · exact Hook.crashless_correct ..
  · trivial

theorem repeatable_visitComma (h : t.Sound) (hn : n ∈ t.document.ids)
    (memory : σ) :
    (visitComma n memory).Repeatable t := by
  refine ⟨fun v s => ?_, ?_⟩
  · have hnext : ((t.nextLeaf? n).any fun next => !v.kindIs next fun k =>
        k == .whitespace || k == .rightParen) =
        (t.nextLeaf? n).any fun next => !t.kindIs next fun k =>
            k == .whitespace || k == .rightParen :=
      any_congr fun next hnext => by
        rw [s.kindIs (h.nextLeaf_mem_document hn hnext)]
    simp only [s.nextLeaf? hn, hnext, addSpaceAfter_eq s hn]
  · dsimp only
    split
    · exact repeatable_addSpaceAfter hn memory
    · trivial

theorem crashless_visitComma (n : NodeId) (memory : σ) :
    (visitComma n memory).Crashless := by
  intro t
  dsimp only
  split
  · exact Hook.crashless_correct ..
  · trivial

/-- **Run.** The loop over the children of a list does the same on both
trees. -/
theorem visitList_eq (s : t.SameFile v) (limit : Option Nat) (layout : Layout)
    (seen : Nat) {cs : List NodeId} (hcs : ∀ c ∈ cs, c ∈ t.document.ids)
    (memory : σ) :
    visitList limit v layout seen cs memory =
      visitList limit t layout seen cs memory := by
  induction cs generalizing seen memory with
  | nil => rfl
  | cons c cs ih =>
    obtain ⟨hc, hcs⟩ := List.forall_mem_cons.mp hcs
    have hrest : ∀ seen, visitList (σ := σ) limit v layout seen cs =
        visitList limit t layout seen cs :=
      fun seen => funext fun memory => ih seen hcs memory
    simp only [visitList, s.hasKind hc, hrest]

/-- **Run.** And each of its steps can be repeated. -/
theorem repeatable_visitList (h : t.Sound) (limit : Option Nat)
    (layout : Layout) (seen : Nat) {cs : List NodeId}
    (hcs : ∀ c ∈ cs, c ∈ t.document.ids) (memory : σ) :
    (visitList limit t layout seen cs memory).Repeatable t := by
  induction cs generalizing seen memory with
  | nil => trivial
  | cons c cs ih =>
    obtain ⟨hc, hcs⟩ := List.forall_mem_cons.mp hcs
    simp only [visitList]
    split_ifs
    · exact (repeatable_visitSpace h hc layout seen memory).andThen
        (ih seen hcs)
    · exact (repeatable_visitComma h hc memory).andThen (ih seen hcs)
    · exact (repeatable_visitParameter h limit hc memory).andThen
        (ih (seen + 1) hcs)
    · exact ih seen hcs memory

theorem crashless_visitList (limit : Option Nat) (t : Tree) (layout : Layout)
    (seen : Nat) (cs : List NodeId) (memory : σ) :
    (visitList limit t layout seen cs memory).Crashless := by
  induction cs generalizing seen memory with
  | nil => trivial
  | cons c cs ih =>
    simp only [visitList]
    split_ifs
    · exact (crashless_visitSpace layout seen c memory).andThen (ih seen)
    · exact (crashless_visitComma c memory).andThen (ih seen)
    · exact (crashless_visitParameter limit c memory).andThen (ih (seen + 1))
    · exact ih seen memory

theorem layout_eq (s : t.SameFile v) (hn : n ∈ t.document.ids) :
    layout v n = layout t n := by
  have hparameters : (t.children n).filter (fun c => v.hasKind c .parameter) =
      (t.children n).filter (fun c => t.hasKind c .parameter) :=
    List.filter_congr fun c hc => s.hasKind (s.left.child_mem_document hn hc) _
  have hcomments : (t.children n).all (fun c => !v.inComment c) =
      (t.children n).all (fun c => !t.inComment c) := by
    rw [Bool.eq_iff_iff, List.all_eq_true, List.all_eq_true]
    refine forall₂_congr fun c hc => ?_
    rw [s.inComment (s.left.child_mem_document hn hc)]
  rw [layout, layout, s.children hn, hparameters, hcomments]

theorem repeatable_before (h : t.Sound) (hn : n ∈ t.document.ids)
    (limit : Option Nat) (memory : σ) :
    (before limit n memory).Repeatable t := by
  have hchildren : ∀ c ∈ t.children n, c ∈ t.document.ids := fun _ hc =>
    h.child_mem_document hn hc
  refine ⟨fun v s => ?_, ?_⟩
  · simp only [s.hasKind hn, layout_eq s hn, s.children hn,
      visitList_eq s limit _ _ hchildren]
  · dsimp only
    split
    · exact repeatable_visitList h limit _ 0 hchildren memory
    · trivial

theorem crashless_before (limit : Option Nat) (n : NodeId) (memory : σ) :
    (before limit n memory).Crashless := by
  intro t
  dsimp only
  split
  · exact crashless_visitList ..
  · trivial

end ParameterSpacing

/-! ## The rule set -/

/-- A rule that is bound without looking at anything but the settings, and
only looks at nodes before what is below them. -/
theorem repeatable_ofVisitor {info : RuleInfo}
    {visitor : SettingsView → Visitor σ}
    (h : ∀ view t, t.Sound → (visitor view).Repeatable t)
    (hc : ∀ view, (visitor view).Crashless) :
    (Provider.ofVisitor info visitor).Stateless ∧
      (Provider.ofVisitor info visitor).Repeatable := by
  refine ⟨fun _ _ => rfl, ?_⟩
  intro number inst view v hmade hbound
  cases hmade
  cases hbound
  exact ⟨h view, hc view⟩

/-- **The standard rules can be run again**: they look at the document only,
never crash and remember nothing. -/
theorem repeatable_providers [Inhabited σ] :
    ∀ p ∈ providers (σ := σ), p.Stateless ∧ p.Repeatable := by
  simp only [providers, List.forall_mem_cons, List.not_mem_nil, false_implies,
    implies_true, and_true]
  refine ⟨repeatable_ofVisitor (fun _ t ht => ?_) fun _ => ?_,
    repeatable_ofVisitor (fun _ t ht => ?_) fun _ => ?_,
    repeatable_ofVisitor (fun _ t ht => ?_) fun _ => ?_⟩
  · exact ⟨fun _ memory hn => BlankLine.repeatable_before hn memory,
      fun _ _ _ => trivial, fun _ => trivial⟩
  · exact ⟨BlankLine.crashless_before, fun _ _ => trivial, fun _ => trivial⟩
  · exact ⟨fun _ memory hn => ChainWrapping.repeatable_before ht hn _ memory,
      fun _ _ _ => trivial,
      fun _ => trivial⟩
  · exact ⟨ChainWrapping.crashless_before _, fun _ _ => trivial,
      fun _ => trivial⟩
  · exact ⟨fun _ memory hn => ParameterSpacing.repeatable_before ht hn _ memory,
      fun _ _ _ => trivial,
      fun _ => trivial⟩
  · exact ⟨ParameterSpacing.crashless_before _, fun _ _ => trivial,
      fun _ => trivial⟩

/-- **Formatting is stable.** If formatting with some of the standard rules
ends before the greatest number of visits, formatting again takes one visit,
gives no new text, reports what was left uncorrected, and leaves the
document as it was. Specification, §14. -/
theorem format_stable [Inhabited σ] {w w' : Session σ} {ps : List (Provider σ)}
    {fuel : Nat} {test : RuleId → Nat → Bool} {s : Settings} {f : Formatted}
    (hps : ∀ p ∈ ps, p ∈ providers)
    (hreg : Registry.ofProviders w.engine.registry.id ps =
      .ok w.engine.registry)
    (ht : w.tree.Reachable)
    (h : w.format fuel (.ofTest test) s = some (w', .ok f))
    (hfew : f.passes < Session.maxPasses) :
    ∃ w'' f', w'.format fuel (.ofTest test) s = some (w'', .ok f') ∧
      f'.passes = 1 ∧ f'.text = none ∧
      f'.violations = f.violations.filter (fun v => !v.corrected) ∧
        w''.tree.document = w'.tree.document ∧
      w''.tree.toText = w'.tree.toText := by
  have hrules : ∀ id p, w.engine.registry.find? id = some p →
      p.CorrectsBy Corrects ∧ p.Stateless ∧ p.Repeatable := by
    intro id p hp
    have hp := hps p (Registry.mem_of_find? hreg hp)
    exact ⟨correctsBy_providers p hp, repeatable_providers p hp⟩
  obtain ⟨w'', f', hformat, hpasses, htext, hviolations, hdoc⟩ :=
    Session.format_twice hrules ht.consistent h hfew
  exact ⟨w'', f', hformat, hpasses, htext, hviolations, hdoc,
    congrArg Forest.text hdoc⟩

/-- In the parameter list `(⏎+a)` the operator gets to the line before. The
space this puts in front of it is not wanted either, but may not be
corrected, and is reported again. -/
theorem format_stable_list :
    let t := Tree.build .file
      [.start .parameterList, .token .leftParen "(", .token .whitespace "\n",
        .token .plus "+", .start .parameter,
        .token .identifier "a", .finish, .token .rightParen ")"]
    let policy := Policy.ofTest fun _ offset => offset == 2
    ∃ w' f w'' f', (Session.standard t).format 20 policy {} = some (w', .ok f) ∧
      f.passes = 2 ∧
      w'.format 20 policy {} = some (w'', .ok f') ∧ f'.passes = 1 ∧
        f'.text = none ∧
      f'.violations.map (fun v => v.offset) = [1] ∧
        w''.tree.document = w'.tree.document ∧
      w''.tree.toText = "( +\na)" := by
  intro t policy
  have hreach : t.Reachable := ⟨_, _, [], rfl⟩
  have hrun : ((Session.standard t).format 20 policy {}).map
      (fun p => (p.1.tree.toText, p.2.toOption.map fun f =>
        (f.passes, (f.violations.filter fun v => !v.corrected).map fun v =>
          v.offset))) =
        some ("( +\na)", some (2, [1])) := by decide +kernel
  obtain ⟨⟨w', r⟩, h, hrun⟩ := Option.map_eq_some_iff.mp hrun
  obtain ⟨htext, hreport⟩ := Prod.mk.inj hrun
  cases r with
  | error e => cases hreport
  | ok f =>
    obtain ⟨hpasses, hoffsets⟩ := Prod.mk.inj (Option.some.inj hreport)
    have hfew : f.passes < Session.maxPasses := by
      rw [show f.passes = 2 from hpasses]
      decide
    obtain ⟨w'', f', hagain, hone, hnone, hviolations, hdoc, hsame⟩ :=
      format_stable (fun _ hp => hp) (Session.ofProviders_standard t)
        hreach h hfew
    refine ⟨w', f, w'', f', h, hpasses, hagain, hone, hnone, ?_, hdoc,
      hsame.trans htext⟩
    rw [hviolations]
    exact hoffsets

end TreeLint.Standard
