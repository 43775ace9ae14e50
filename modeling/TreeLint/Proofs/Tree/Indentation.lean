import TreeLint.Proofs.Text.LineTable
import TreeLint.Proofs.Tree.Splice
import Mathlib.Data.List.TakeWhile

/-!
# The indentation of a line

The indentation of the line a node starts on is found by going back from
token to token until one has a line break. In the text in front of the node
that is the last line break of all: the tokens that were passed have none,
so the line goes on from the token with the break to the node
(`lineIndent_of_break`). Which token holds a line break can be told from
offsets alone (`HoldsBreak`), so the indentation can be read off the text of
the file (`indent_agrees`).

Specification, §13: what is moved to a new line is indented.
-/

namespace TreeLint

/-! ## Lines of a text -/

namespace Text

/-- What follows the last line break, or the whole text if there is none. -/
def lastLine (s : String) : String :=
  String.ofList (s.toList.reverse.takeWhile (· != '\n')).reverse

/-- What comes before the first line break, or the whole text if there is
none. -/
def firstLine (s : String) : String :=
  String.ofList (s.toList.takeWhile (· != '\n'))

/-- The longest part at the start of a text that is made of white space. -/
def leadingBlanks (s : String) : String :=
  String.ofList (s.toList.takeWhile isBlank)

theorem exists_leadingBlanks (s : String) :
    ∃ rest, s = leadingBlanks s ++ rest := by
  refine ⟨String.ofList (s.toList.dropWhile isBlank), ?_⟩
  rw [leadingBlanks, ← String.ofList_append, List.takeWhile_append_dropWhile,
    String.ofList_toList]

/-- Going back from the end of a text stops at the last line break. -/
theorem takeWhile_reverse_append {line : List Char} (hline : '\n' ∉ line)
    (cs : List Char) :
    ((cs ++ '\n' :: line).reverse.takeWhile (· != '\n')).reverse = line := by
  have hall : ∀ c ∈ line.reverse, (c != '\n') = true := by
    intro c hc
    rw [bne_iff_ne]
    rintro rfl
    exact hline (List.mem_reverse.mp hc)
  rw [List.reverse_append, List.reverse_cons, List.append_assoc,
    List.takeWhile_append_of_pos hall]
  simp

end Text

namespace Tree

variable {s line head tail upTo : String} {before mid pre toks : List Token}
  {tok : Token}

theorem hasBreak_iff : hasBreak s = true ↔ '\n' ∈ s.toList :=
  List.contains_iff_mem

theorem hasBreak_eq_false_iff : hasBreak s = false ↔ '\n' ∉ s.toList := by
  rw [← hasBreak_iff, Bool.not_eq_true]

theorem hasBreak_append (s s' : String) :
    hasBreak (s ++ s') = (hasBreak s || hasBreak s') := by
  simp [hasBreak]

/-- A text with line breaks is cut at the last of them. -/
theorem exists_last_break (h : hasBreak s = true) :
    ∃ upTo line, s = upTo ++ "\n" ++ line ∧ hasBreak line = false := by
  obtain ⟨whole, line, hs, hwhole, hline⟩ := Text.exists_lastLine s.toList
  rcases hwhole with rfl | ⟨cs, rfl⟩
  · rw [hasBreak_iff, hs] at h
    exact absurd h hline
  · refine ⟨String.ofList cs, String.ofList line,
      ?_, by simpa [hasBreak_eq_false_iff] using hline⟩
    rw [← @String.ofList_toList s, hs, String.ofList_append,
      String.ofList_append]

theorem lastLine_append (hline : hasBreak line = false) (upTo : String) :
    Text.lastLine (upTo ++ "\n" ++ line) = line := by
  have hcut : (upTo ++ "\n" ++ line).toList =
      upTo.toList ++ '\n' :: line.toList := by simp
  rw [Text.lastLine, hcut, Text.takeWhile_reverse_append
    (hasBreak_eq_false_iff.mp hline), String.ofList_toList]

/-! ## Going back -/

theorem afterLastBreak?_append {tail : List Char} (htail : '\n' ∉ tail)
    (cs : List Char) :
    afterLastBreak? (cs ++ '\n' :: tail) = some tail := by
  rw [afterLastBreak?, if_pos (by simp), Text.takeWhile_reverse_append htail]

/-- The indentation of a line never reaches over a line break. -/
theorem not_mem_lineIndent (before : List Token) :
    '\n' ∉ lineIndent before := by
  induction before with
  | nil => simp [lineIndent]
  | cons tok before ih =>
    unfold lineIndent
    split
    · next tail htail =>
      have hnot : '\n' ∉ tail := by
        unfold afterLastBreak? at htail
        split at htail
        · cases htail
          intro hmem
          have hne := List.mem_takeWhile_imp (List.mem_reverse.mp hmem)
          simp at hne
        · cases htail
      split
      · exact hnot
      · exact fun hmem => hnot ((List.takeWhile_prefix _).subset hmem)
    · exact ih

/-- Tokens without a line break are passed. -/
theorem lineIndent_append (hmid : hasBreak (Token.texts mid) = false)
    (before : List Token) :
    lineIndent (mid.reverse ++ before) = lineIndent before := by
  induction mid generalizing before with
  | nil => rfl
  | cons tok mid ih =>
    rw [Token.texts, hasBreak_append, Bool.or_eq_false_iff] at hmid
    have hnone : afterLastBreak? tok.text.toList = none := by
      rw [afterLastBreak?, if_neg]
      exact fun hbreak => absurd (hmid.1.symm.trans hbreak) Bool.false_ne_true
    rw [List.reverse_cons, List.append_assoc, ih hmid.2, List.singleton_append,
      lineIndent, hnone]

/-- The way back ends at the last token with a line break. What that token
has behind the break is the indentation, all of it in white space and the
white space at its start in any other token. -/
theorem lineIndent_of_break (htext : tok.text = head ++ "\n" ++ tail)
    (hline : hasBreak (tail ++ Token.texts mid) = false) :
    lineIndent (before ++ tok :: mid).reverse =
      (if tok.kind = .whitespace then tail
        else Text.leadingBlanks tail).toList := by
  rw [hasBreak_append, Bool.or_eq_false_iff, hasBreak_eq_false_iff] at hline
  have hcut : tok.text.toList = head.toList ++ '\n' :: tail.toList := by
    simp [htext]
  rw [List.reverse_append, List.reverse_cons, List.append_assoc,
    lineIndent_append hline.2, List.singleton_append,
    lineIndent, hcut, afterLastBreak?_append hline.1]
  by_cases hk : tok.kind = .whitespace
  · simp only [if_pos hk]
  · simp only [if_neg hk, Text.leadingBlanks, String.toList_ofList]

/-- The last of some tokens that has a line break. -/
theorem exists_last_with_break (h : hasBreak (Token.texts toks) = true) :
    ∃ before tok mid, toks = before ++ tok :: mid ∧ hasBreak tok.text = true ∧
      hasBreak (Token.texts mid) = false := by
  induction toks with
  | nil => cases h
  | cons tok toks ih =>
    cases hrest : hasBreak (Token.texts toks) with
    | true =>
      obtain ⟨before, tok', mid, rfl, hbreak, hmid⟩ := ih hrest
      exact ⟨tok :: before, tok', mid, rfl, hbreak, hmid⟩
    | false =>
      rw [Token.texts, hasBreak_append, hrest, Bool.or_false] at h
      exact ⟨[], tok, toks, rfl, h, hrest⟩

/-! ## Offsets -/

variable {t : Tree} {n z : NodeId} {post : List Token} {f : Forest}
  {offset : Nat}

/-- A leaf of the file holds the line break at an offset, and has `tail`
behind it. -/
structure HoldsBreak (t : Tree) (z : NodeId) (offset : Nat)
    (tail : String) : Prop where
  leaf : z ∈ t.leaves root
  text : ∃ head, t.tokenText? z = some (head ++ "\n" ++ tail) ∧
    t.startOffset z + head.utf8ByteSize = offset

namespace Sound

/-- A leaf with the last line break before a node is one of the tokens
before it, and no line break comes between. -/
theorem exists_cut_of_holdsBreak (h : t.Sound)
    (ha : Forest.Around n t.document pre (t.subtree n) post)
    (hpre : Token.texts pre = upTo ++ "\n" ++ line)
    (hz : t.HoldsBreak z upTo.utf8ByteSize tail) :
    ∃ before tok mid head, pre = before ++ tok :: mid ∧ tok.id = z ∧
      tok.text = head ++ "\n" ++ tail ∧
      line = tail ++ Token.texts mid := by
  obtain ⟨hleaf, head, htext, hoffset⟩ := hz
  obtain ⟨tok, htok, rfl⟩ := List.mem_map.mp hleaf
  have htok : tok ∈ t.document.tokens := htok
  rw [(h.of_mem_tokens htok).2.2, Option.some.injEq] at htext
  obtain ⟨before, after, hsplit⟩ := List.append_of_mem htok
  rw [h.startOffset_eq (h.around_of_tokens hsplit)] at hoffset
  have hboth : pre ++ ((t.subtree n).tokens ++ post) =
      before ++ tok :: after := by
    rw [← hsplit, ha.tokens_eq, List.append_assoc]
  -- were the leaf not before the node, all text before the node would come
  -- before the line break
  have hshort : ¬ pre <+: before := by
    rintro ⟨rest, rfl⟩
    rw [Token.texts_append, hpre] at hoffset
    simp only [String.utf8ByteSize_append] at hoffset
    have hone : "\n".utf8ByteSize = 1 := by decide
    omega
  have hcut : ∃ mid, pre = before ++ tok :: mid := by
    rcases List.append_eq_append_iff.mp hboth with ⟨rest, hrest, -⟩ | ⟨mid,
      hmid, hrest⟩
    · exact absurd ⟨rest, hrest.symm⟩ hshort
    · cases mid with
      | nil => exact absurd ⟨[], by simpa using hmid⟩ hshort
      | cons tok' mid =>
        obtain ⟨rfl, -⟩ := List.cons.inj hrest
        exact ⟨mid, hmid⟩
  obtain ⟨mid, rfl⟩ := hcut
  refine ⟨before, tok, mid, head, rfl, rfl, htext, ?_⟩
  rw [Token.texts_append, Token.texts, htext] at hpre
  have hwhole : (Token.texts before ++ head) ++
      ("\n" ++ (tail ++ Token.texts mid)) = upTo ++ ("\n" ++ line) := by
    simpa only [String.append_assoc] using hpre
  obtain ⟨-, hrest⟩ := Text.append_inj hwhole
    (by rw [String.utf8ByteSize_append, hoffset])
  exact (Text.append_inj hrest rfl).2.symm

/-- The last line break before a node is held by a leaf. -/
theorem exists_holdsBreak (h : t.Sound)
    (ha : Forest.Around n t.document pre (t.subtree n) post)
    (hpre : Token.texts pre = upTo ++ "\n" ++ line)
    (hline : hasBreak line = false) :
    ∃ z tail, t.HoldsBreak z upTo.utf8ByteSize tail := by
  have hbreak : hasBreak (Token.texts pre) = true := by
    rw [hpre, hasBreak_append, hasBreak_append]; simp [hasBreak]
  obtain ⟨before, tok, mid, rfl, htok, hmid⟩ := exists_last_with_break hbreak
  obtain ⟨head, tail, htext, htail⟩ := exists_last_break htok
  have hsplit : t.document.tokens =
      before ++ tok :: (mid ++ ((t.subtree n).tokens ++ post)) := by
    rw [ha.tokens_eq]
    simp
  have hmem : tok ∈ t.document.tokens := by simp [hsplit]
  -- both ways of cutting the text at its last line break agree
  have hlast : tail ++ Token.texts mid = line := by
    have hcut := congrArg Text.lastLine hpre
    rw [lastLine_append hline, Token.texts_append, Token.texts, htext] at hcut
    have hbehind : hasBreak (tail ++ Token.texts mid) = false := by
      rw [hasBreak_append, htail, hmid]; rfl
    rw [← hcut, ← lastLine_append hbehind (Token.texts before ++ head)]
    simp only [String.append_assoc]
  refine ⟨tok.id, tail, List.mem_map_of_mem hmem, head,
    htext ▸ (h.of_mem_tokens hmem).2.2, ?_⟩
  rw [h.startOffset_eq (h.around_of_tokens hsplit)]
  have hsize := congrArg String.utf8ByteSize hpre
  rw [Token.texts_append, Token.texts, htext, ← hlast] at hsize
  simp only [String.utf8ByteSize_append] at hsize
  omega

theorem indent_eq (h : t.Sound)
    (ha : Forest.Around n t.document pre (t.subtree n) post) :
    t.indent n = "\n" ++ String.ofList (lineIndent pre.reverse) := by
  rw [indent, (h.tokens_of_around ha).1, ← String.toList_inj]
  simp

/-- The leaf with the last line break before a node decides its indentation. -/
theorem indent_of_holdsBreak (h : t.Sound)
    (ha : Forest.Around n t.document pre (t.subtree n) post)
    (hpre : Token.texts pre = upTo ++ "\n" ++ line)
    (hline : hasBreak line = false)
    (hz : t.HoldsBreak z upTo.utf8ByteSize tail) :
    t.indent n = "\n" ++ (if t.hasKind z .whitespace then tail
      else Text.leadingBlanks tail) ∧
      ∃ rest, line = (if t.hasKind z .whitespace then tail
        else Text.leadingBlanks tail) ++ rest := by
  obtain ⟨before, tok, mid, head, rfl, rfl, htext, rfl⟩ :=
    h.exists_cut_of_holdsBreak ha hpre hz
  have hmem : tok ∈ t.document.tokens := by simp [ha.tokens_eq]
  simp only [h.hasKind_token hmem]
  constructor
  · rw [h.indent_eq ha, lineIndent_of_break htext hline, String.ofList_toList]
  · split
    · exact ⟨_, rfl⟩
    · obtain ⟨rest, hrest⟩ := Text.exists_leadingBlanks tail
      exact ⟨rest ++ Token.texts mid, by rw [← String.append_assoc, ← hrest]⟩

end Sound

/-! ## Main statement -/

/-- **Indentation agrees with the text.** Let `front` be the text of the
file before an attached node, as many bytes as the offset of the node says.
If it has no line break, the indentation is a mere line break. Otherwise
some leaf holds its last line break, and that leaf, whichever it is found to
be, decides: the indentation is a line break and what the leaf has behind
its break, all of it if the leaf is white space and the white space at its
start if not. Either way a line break is followed by the start of the last
line of `front`. Specification, §13. -/
theorem indent_agrees {t : Tree} (h : t.Reachable) {n : NodeId}
    (hn : t.isAttached n = true) :
    ∃ front back, t.toText = front ++ back ∧
      front.utf8ByteSize = t.startOffset n ∧
      (hasBreak front = false → t.indent n = "\n") ∧
      (∀ upTo line, front = upTo ++ "\n" ++ line → hasBreak line = false →
        (∃ z tail, t.HoldsBreak z upTo.utf8ByteSize tail) ∧
        ∀ z tail, t.HoldsBreak z upTo.utf8ByteSize tail →
          t.indent n = "\n" ++ if t.hasKind z .whitespace then tail
            else Text.leadingBlanks tail) ∧
      ∃ space rest, t.indent n = "\n" ++ space ∧ hasBreak space = false ∧
        Text.lastLine front = space ++ rest := by
  have hs := h.consistent.sound
  obtain ⟨pre, post, ha⟩ := hs.around_of_attached hn
  have hfirst : hasBreak (Token.texts pre) = false → t.indent n = "\n" := by
    intro hnone
    have hpassed := lineIndent_append hnone []
    rw [List.append_nil] at hpassed
    rw [hs.indent_eq ha, hpassed]
    rfl
  refine ⟨Token.texts pre, Token.texts ((t.subtree n).tokens ++ post), ?_,
    (hs.startOffset_eq ha).symm, hfirst,
    fun upTo line hcut hline =>
        ⟨hs.exists_holdsBreak ha hcut hline, fun z tail hz =>
      (hs.indent_of_holdsBreak ha hcut hline hz).1⟩, ?_⟩
  · rw [toText_eq, ha.tokens_eq, List.append_assoc, Token.texts_append]
  · cases hbreak : hasBreak (Token.texts pre) with
    | false => exact ⟨"", _, hfirst hbreak, rfl, (String.empty_append).symm⟩
    | true =>
      obtain ⟨upTo, line, hcut, hline⟩ := exists_last_break hbreak
      obtain ⟨z, tail, hz⟩ := hs.exists_holdsBreak ha hcut hline
      obtain ⟨hindent, rest, hrest⟩ := hs.indent_of_holdsBreak ha hcut hline hz
      refine ⟨_, rest, hindent, ?_, ?_⟩
      · rw [hrest, hasBreak_append, Bool.or_eq_false_iff] at hline
        exact hline.1
      · rw [hcut, lastLine_append hline, ← hrest]

/-- The last line break before a node stands in a comment, with a node
without any leaf in between: of what the comment has behind it only the
white space counts. -/
theorem indent_agrees_in_comment :
    let t := build .file
      [.token .identifier "a", .token .blockComment "/*\n  é */", .start .block,
        .finish, .token .identifier "b"]
    t.isAttached 4 = true ∧ t.toText = "a/*\n  é */b" ∧ t.startOffset 4 = 11 ∧
      t.HoldsBreak 2 3 "  é */" ∧
      t.indent 4 = "\n  " ∧
      ∃ front back, t.toText = front ++ back ∧ front.utf8ByteSize = 11 ∧
        ∃ space rest, t.indent 4 = "\n" ++ space ∧ hasBreak space = false ∧
            Text.lastLine front = space ++ rest := by
  intro t
  obtain ⟨front, back, htext, hsize, -, hbreak, hlast⟩ :=
    indent_agrees (t := t) ⟨.file, _, [], rfl⟩ (n := 4) (by decide)
  have hholds : t.HoldsBreak 2 3 "  é */" :=
    ⟨by decide, "/*", by decide, by decide⟩
  obtain ⟨rfl, -⟩ := Text.append_inj
    (htext.symm.trans (show t.toText = "a/*\n  é */" ++ "b" by decide)) hsize
  have hindent := (hbreak "a/*" "  é */" (by decide) (by decide)).2 2 _ hholds
  exact ⟨by decide, by decide, by decide, hholds, hindent.trans (by decide), _,
    _, htext, hsize, hlast⟩

end Tree

end TreeLint
