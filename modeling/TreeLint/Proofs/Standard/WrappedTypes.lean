import TreeLint.Proofs.Tree.Indentation
import TreeLint.Proofs.Tree.Layout
import TreeLint.Standard.ParameterSpacing

/-!
# Types behind their colons

A type on a line of its own is put behind its colon if it fits there.
Whether it does is worked out before anything is changed: the line so far is
measured in the text, the rest of it by going from token to token, with the
width of each. The widths add up to what comes before the next line break
(`total_widthsOnLine`), whatever nodes the tokens belong to. So unless there
is a line comment on the way, which does not count, the question is whether
the line that would come about is too long (`typeFits_iff_joined`).

Specification, §13: a type may wrap if it would not fit on the line.
-/

namespace TreeLint

open Forest (Context Layer)
open Forest.Context

theorem Token.toList_texts (toks : List Token) :
    (Token.texts toks).toList = toks.flatMap fun tok => tok.text.toList := by
  induction toks with
  | nil => rfl
  | cons tok toks ih =>
    rw [Token.texts, String.toList_append, ih, List.flatMap_cons]

/-! ## The first line -/

namespace Text

variable {s : String}

/-- The first line ends in the first text that has a line break. -/
theorem firstLine_append_of_break (hs : Tree.hasBreak s = true) (s' : String) :
    firstLine (s ++ s') = firstLine s := by
  have hshort : (s.toList.takeWhile (· != '\n')).length ≠ s.toList.length := by
    intro hlength
    have hall := (List.takeWhile_prefix _).eq_of_length hlength
    have hmem := Tree.hasBreak_iff.mp hs
    rw [← hall] at hmem
    simpa using List.mem_takeWhile_imp hmem
  rw [firstLine, String.toList_append, List.takeWhile_append,
    if_neg hshort, firstLine]

/-- It goes on through texts that have none. -/
theorem firstLine_append (hs : Tree.hasBreak s = false) (s' : String) :
    firstLine (s ++ s') = s ++ firstLine s' := by
  have hall : ∀ c ∈ s.toList, (c != '\n') = true := by
    intro c hc
    rw [bne_iff_ne]
    rintro rfl
    exact Tree.hasBreak_eq_false_iff.mp hs hc
  rw [firstLine, String.toList_append, List.takeWhile_append_of_pos hall,
    String.ofList_append, String.ofList_toList,
    firstLine]

end Text

namespace Standard.ParameterSpacing

open TreeLint.Tree (hasBreak)

variable {toks : List Token} {widths : List (Kind × Nat)}

/-! ## Widths -/

/-- The sum of some widths. -/
def total (widths : List (Kind × Nat)) : Nat :=
  (widths.map Prod.snd).foldr (· + ·) 0

theorem total_append (widths widths' : List (Kind × Nat)) :
    total (widths ++ widths') = total widths + total widths' := by
  induction widths with
  | nil => simp [total]
  | cons w widths ih =>
    simp only [total, List.cons_append, List.map_cons, List.foldr_cons] at ih ⊢
    rw [ih, Nat.add_assoc]

theorem total_reverse (widths : List (Kind × Nat)) :
    total widths.reverse = total widths := by
  induction widths with
  | nil => rfl
  | cons w widths ih =>
    rw [List.reverse_cons, total_append, ih, Nat.add_comm, ← total_append]
    rfl

/-- Widths of zero make no difference. -/
theorem total_dropWhile (widths : List (Kind × Nat)) :
    total (widths.dropWhile fun w => w.1 == .whitespace && w.2 == 0) =
      total widths := by
  induction widths with
  | nil => rfl
  | cons w widths ih =>
    rw [List.dropWhile_cons]
    split
    · next hw =>
      rw [Bool.and_eq_true, beq_iff_eq, beq_iff_eq] at hw
      rw [ih, total, total, List.map_cons, List.foldr_cons, hw.2, Nat.zero_add]
    · rfl

theorem dropComment_of_none (h : ∀ w ∈ widths, w.1 ≠ .lineComment) :
    dropComment widths = widths := by
  unfold dropComment
  split
  · exact absurd rfl (h _ List.mem_cons_self)
  · exact absurd rfl (h _ List.mem_cons_self)
  · rfl

/-- The widths of tokens add up to what they have before the first line
break. -/
theorem total_widthsOnLine (toks : List Token) :
    total (widthsOnLine toks) = (Text.firstLine (Token.texts toks)).length := by
  induction toks with
  | nil => rfl
  | cons tok toks ih =>
    rw [widthsOnLine, Token.texts]
    split
    · next hbreak =>
      rw [Text.firstLine_append_of_break hbreak]
      simp [total, Text.firstLine]
    · next hbreak =>
      rw [Text.firstLine_append (Bool.eq_false_iff.mpr hbreak),
        String.length_append, ← ih]
      simp [total]

/-- Every width is that of a token that begins before the first line break. -/
theorem exists_token_of_mem_widthsOnLine {w : Kind × Nat}
    (hw : w ∈ widthsOnLine toks) :
    ∃ front tok back, toks = front ++ tok :: back ∧ tok.kind = w.1 ∧
      hasBreak (Token.texts front) = false := by
  induction toks with
  | nil => cases hw
  | cons tok toks ih =>
    rw [widthsOnLine] at hw
    split at hw
    · obtain rfl := List.mem_singleton.mp hw
      exact ⟨[], tok, toks, rfl, rfl, rfl⟩
    · next hbreak =>
      rcases List.mem_cons.mp hw with rfl | hw
      · exact ⟨[], tok, toks, rfl, rfl, rfl⟩
      · obtain ⟨front, tok', back, rfl, hk, hfront⟩ := ih hw
        refine ⟨tok :: front, tok', back, rfl, hk, ?_⟩
        rw [Token.texts, Tree.hasBreak_append, hfront, Bool.or_false,
          Bool.eq_false_iff.mpr hbreak]

/-- A line without a line comment is as wide as its text. -/
theorem lineWidth_eq
    (h : ∀ front tok back, toks = front ++ tok :: back →
      hasBreak (Token.texts front) = false → tok.kind ≠ .lineComment) :
    lineWidth toks = (Text.firstLine (Token.texts toks)).length := by
  have hnone : ∀ w ∈ (widthsOnLine toks).reverse.dropWhile
      (fun w => w.1 == .whitespace && w.2 == 0),
      w.1 ≠ .lineComment := by
    intro w hw
    have hmem : w ∈ widthsOnLine toks :=
      List.mem_reverse.mp ((List.dropWhile_suffix _).subset hw)
    obtain ⟨front, tok, back, hsplit, hk, hfront⟩ :=
      exists_token_of_mem_widthsOnLine hmem
    exact hk ▸ h front tok back hsplit hfront
  have htotal : lineWidth toks = total (dropComment _) := rfl
  rw [htotal, dropComment_of_none hnone, total_dropWhile, total_reverse,
    total_widthsOnLine]

end Standard.ParameterSpacing

/-! ## Next siblings -/

namespace Tree

variable {t : Tree} {m w : NodeId}

/-- The tokens of the next sibling come right behind those of a node. -/
theorem Consistent.around_nextSibling (h : t.Consistent)
    (hw : t.isAttached w = true) (hnext : t.nextSibling? w = some m) :
    ∃ pre post, Forest.Around w t.document pre (t.subtree w)
      ((t.subtree m).tokens ++ post) ∧
      Forest.Around m t.document (pre ++ (t.subtree w).tokens)
        (t.subtree m) post := by
  obtain ⟨C, hshows⟩ := h.shows hw
  have hs : (t.subtree w).roots = [w] :=
    Forest.roots_subtree? (h.sound.subtree?_document
      (h.sound.mem_document_iff.mpr hw))
  cases C with
  | nil =>
    rw [(hshows.top hs).2.1] at hnext
    cases hnext
  | cons l C =>
    obtain ⟨i, k, before, after⟩ := l
    rw [nextSibling?, (h.sound.siblings_of_children (hshows.siblings_eq hs)).2]
      at hnext
    obtain ⟨ms, hroots⟩ := List.head?_eq_some_iff.mp hnext
    obtain ⟨x, rest, rfl, hx, -⟩ :=
      Forest.exists_append_of_roots (show after.roots = [m] ++ ms from hroots)
    -- the same document, seen from the sibling
    have hm :
        t.Shows (fill (⟨i, k, before.append (t.subtree w), rest⟩ :: C) x) := by
      simpa only [fill, Forest.append_assoc] using hshows
    obtain rfl := hm.subtree_eq (Forest.subtree?_of_roots_eq hx)
    refine ⟨leftTokens (⟨i, k, before, .nil⟩ :: C),
      rest.tokens ++ rightTokens C, ?_, ?_⟩
    · simpa [leftTokens, rightTokens, Forest.tokens_append]
        using hshows.around hs
    · simpa [leftTokens, rightTokens, Forest.tokens_append] using hm.around hx

end Tree

namespace Standard.ParameterSpacing

open TreeLint.Tree (hasBreak root)

variable {t : Tree} {w type z : NodeId} {pre post : List Token} {m : Nat}

/-! ## Measuring -/

theorem widthBefore_eq (h : t.Sound) {s : Forest}
    (ha : Forest.Around w t.document pre s post) :
    widthBefore t w = (Text.lastLine (Token.texts pre)).length := by
  rw [widthBefore, (h.tokens_of_around ha).1, List.reverse_reverse,
    Text.lastLine, Token.toList_texts]
  simp

/-- What is asked of a type right behind some white space: whether the line
so far, a space and the line it begins are short enough. -/
theorem typeFits_of_nextSibling (hnext : t.nextSibling? w = some type)
    (hkind : t.hasKind type .typeReference = true) (hleaf : t.leaves type ≠ [])
    (m : Nat) :
    typeFits (some m) t w =
      decide (widthBefore t w + 1 + lineWidth
        ((t.subtree type).tokens ++ t.tokensAfter type) ≤ m) := by
  obtain ⟨others, hafter⟩ := List.head?_eq_some_iff.mp hnext
  have hcode : t.kindIs type Kind.isTrivia = false := by
    rw [Tree.hasKind, beq_iff_eq] at hkind
    rw [Tree.kindIs, hkind]
    rfl
  have hfound : (t.nextCodeSibling? w).filter (fun next =>
      t.hasKind next .typeReference) = some type := by
    rw [Tree.nextCodeSibling?, hafter, List.find?_cons_of_pos
      (by rw [hcode]; rfl), Option.filter_some, if_pos hkind]
  unfold typeFits
  simp only [hfound]
  exact if_neg (by simpa using hleaf)

theorem isLeaf_of_isBreak (h : t.isBreak w = true) : t.isLeaf w = true := by
  rw [Tree.isBreak, Bool.and_eq_true, Option.any_eq_true_iff_get] at h
  exact h.2.1

/-- A leaf of the file starts on the line that a text at an offset begins:
not before the text, and not behind its first line break. -/
structure StartsOnLine (t : Tree) (z : NodeId) (start : Nat)
    (text : String) : Prop where
  leaf : z ∈ t.leaves root
  after : start ≤ t.startOffset z
  before : t.startOffset z ≤ start + (Text.firstLine text).utf8ByteSize

/-- A token with no line break between it and the start of a line starts on
that line. -/
theorem startsOnLine_of_tokens (h : t.Sound) {front back : List Token}
    {tok : Token} (hsplit : t.document.tokens = pre ++ (front ++ tok :: back))
    (hfront : hasBreak (Token.texts front) = false) :
    StartsOnLine t tok.id (Token.texts pre).utf8ByteSize
      (Token.texts (front ++ tok :: back)) := by
  have hsplit' : t.document.tokens = (pre ++ front) ++ tok :: back := by
    rw [hsplit, List.append_assoc]
  have hmem : tok ∈ t.document.tokens := by simp [hsplit]
  have hstart := h.startOffset_eq (h.around_of_tokens hsplit')
  rw [Token.texts_append, String.utf8ByteSize_append] at hstart
  refine ⟨List.mem_map_of_mem hmem, by omega, ?_⟩
  rw [hstart, Token.texts_append, Text.firstLine_append hfront,
    String.utf8ByteSize_append]
  omega

end Standard.ParameterSpacing

/-! ## Main statement -/

open Standard.ParameterSpacing in
/-- **A type is put behind its colon if the joined line fits.** Take white
space with a line break in front of a type that has a leaf, and the texts
before and behind the white space. If no line comment starts on the line
that the type begins, the type is found to fit just if the line is not too
long that comes about when the white space is replaced by one space: from
the last line break before it to the first one behind it. Specification,
§13. -/
theorem typeFits_iff_joined {t : Tree} (h : t.Reachable) {w type : NodeId}
    (hw : t.isAttached w = true) (hbreak : t.isBreak w = true)
    (hnext : t.nextSibling? w = some type)
    (hkind : t.hasKind type .typeReference = true)
    (hleaf : t.leaves type ≠ []) :
    ∃ front back, t.toText = front ++ t.text w ++ back ∧
      front.utf8ByteSize = t.startOffset w ∧
      (t.replaceText w " ").tree.toText = front ++ " " ++ back ∧
      ((∀ z, StartsOnLine t z (t.startOffset type) back →
        t.hasKind z .lineComment = false) →
        ∀ m, typeFits (some m) t w = true ↔
          (Text.lastLine front ++ " " ++ Text.firstLine back).length ≤ m) := by
  have hs := h.consistent.sound
  obtain ⟨pre, post, ha, ha'⟩ := h.consistent.around_nextSibling hw hnext
  have htext : t.toText = Token.texts pre ++ t.text w ++ Token.texts
      ((t.subtree type).tokens ++ post) := by
    rw [Tree.toText_eq, ha.tokens_eq, Token.texts_append, Token.texts_append,
      ← Tree.text_eq]
  have hstart := (hs.startOffset_eq ha).symm
  refine ⟨_, _, htext, hstart, ?_, ?_⟩
  · have hok : (t.replaceText w " ").failure = none := by
      rw [Tree.replaceText_succeeds_iff]
      exact isLeaf_of_isBreak hbreak
    have hspliced := Tree.spliced_replaceText hs hw hok
    exact (hspliced.unique ⟨_, _, _, htext, hstart,
      (Tree.textLength_eq t w).symm, rfl⟩).symm
  · intro hnone m
    have hwidth : lineWidth ((t.subtree type).tokens ++ post) =
        (Text.firstLine
            (Token.texts ((t.subtree type).tokens ++ post))).length := by
      refine lineWidth_eq fun front tok back hsplit hfront hcomment => ?_
      have htokens : t.document.tokens = (pre ++ (t.subtree w).tokens) ++
          (front ++ tok :: back) := by
        rw [← hsplit, ha.tokens_eq]
      have hmem : tok ∈ t.document.tokens := by simp [htokens]
      have hstarts := startsOnLine_of_tokens hs htokens hfront
      rw [← hs.startOffset_eq ha', ← hsplit] at hstarts
      exact absurd (hnone tok.id hstarts)
        (by simpa using (hs.hasKind_token hmem).mpr hcomment)
    rw [typeFits_of_nextSibling hnext hkind hleaf, decide_eq_true_iff,
      (hs.tokens_of_around ha').2, hwidth,
      widthBefore_eq hs ha, String.length_append, String.length_append]
    rfl

/-- A parameter list with its type on the next line, and a line comment on
the line after that: joined, it has six characters. -/
theorem typeFits_iff_joined_six :
    let t := Tree.build .file
      [.start .parameterList, .token .leftParen "(", .start .parameter,
        .token .identifier "é", .token .colon ":",
        .token .whitespace "\n  ", .start .typeReference,
          .token .identifier "T", .finish, .finish,
        .token .rightParen ")", .token .whitespace "\n",
          .token .lineComment "//"]
    t.isAttached 6 = true ∧ t.isBreak 6 = true ∧ t.nextSibling? 6 = some 7 ∧
      t.hasKind 7 .typeReference = true ∧
      t.leaves 7 = [8] ∧ (t.replaceText 6 " ").tree.toText = "(é: T)\n//" ∧
      Standard.ParameterSpacing.typeFits (some 6) t 6 = true ∧
      Standard.ParameterSpacing.typeFits (some 5) t 6 = false := by
  intro t
  have hnext : t.nextSibling? 6 = some 7 := by decide
  obtain ⟨front, back, htext, hsize, hjoined, hfits⟩ :=
    typeFits_iff_joined (t := t) ⟨.file, _, [], rfl⟩
    (by decide) (by decide) hnext (by decide) (by decide)
  have hcut : t.toText = "(é:" ++ ("\n  " ++ "T)\n//") := by decide
  rw [htext, String.append_assoc] at hcut
  obtain ⟨rfl, hrest⟩ := Text.append_inj hcut (hsize.trans (by decide))
  obtain ⟨-, rfl⟩ := Text.append_inj hrest (by decide)
  have hlater : ∀ z ∈ t.leaves Tree.root, t.hasKind z .lineComment = true →
      t.startOffset 7 + (Text.firstLine "T)\n//").utf8ByteSize <
        t.startOffset z := by decide
  have hiff := hfits fun z hz => by
    rw [Bool.eq_false_iff]
    exact fun hk => absurd hz.before (Nat.not_le_of_lt (hlater z hz.leaf hk))
  refine ⟨by decide, by decide, hnext, by decide, by decide, hjoined,
    (hiff 6).mpr (by decide), ?_⟩
  rw [Bool.eq_false_iff]
  exact fun htrue => absurd ((hiff 5).mp htrue) (by decide)

end TreeLint
