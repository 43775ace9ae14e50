import Mathlib.Data.List.Chain
import TreeLint.Proofs.Standard.CodeOrder
import TreeLint.Proofs.Tree.Gaps
import TreeLint.Proofs.Tree.Indentation

/-!
# Line comments and the ends of lines

A line comment reaches to the end of its line, so whatever comes to stand
behind it there is code no longer. In a document it is the last token,
therefore, or followed by a line break (`LineCommentsEnd`).

The standard rules do not look after this. A rule that removes a line break
in front of a comma, in front of a colon or behind a modifier, or that gets
rid of one when it moves an operator to the line before, does so whether or
not a line comment ends there: `comma_in_line_comment` is a file in which a
comma and all that follows it become part of a comment. Corrections of these
kinds are told by their messages (`joinsLines`). All others are safe, and a
file in which none of these was made has its line comments in order after
formatting (`line_comments_end_without_joining`).

Specification, §13.
-/

namespace TreeLint

/-- White space with a line break in it. -/
def Token.isBreak (tok : Token) : Bool :=
  tok.kind == .whitespace && Tree.hasBreak tok.text

/-- Every line comment is the last token, or followed by a line break. -/
def LineCommentsEnd (tokens : List Token) : Prop :=
  tokens.IsChain fun a b => a.kind = .lineComment → b.isBreak = true

instance (tokens : List Token) : Decidable (LineCommentsEnd tokens) :=
  inferInstanceAs (Decidable (List.IsChain _ _))

namespace LineCommentsEnd

variable {pre post : List Token} {tok : Token}

/-- A token between others: it is no line comment, and it is a line break or
stands behind no line comment. -/
theorem put (hpre : LineCommentsEnd pre) (hpost : LineCommentsEnd post)
    (htok : tok.kind ≠ .lineComment)
    (hseam : tok.isBreak = true ∨ ∀ a ∈ pre.getLast?, a.kind ≠ .lineComment) :
    LineCommentsEnd (pre ++ tok :: post) := by
  refine List.IsChain.append hpre
    (List.isChain_cons.mpr ⟨fun b _ h => absurd h htok, hpost⟩) ?_
  rintro a ha b hb hcomment
  obtain rfl : tok = b := by simpa using hb
  exact hseam.resolve_right fun hno => hno a ha hcomment

theorem left (h : LineCommentsEnd (pre ++ post)) : LineCommentsEnd pre :=
  List.IsChain.left_of_append h

theorem right (h : LineCommentsEnd (pre ++ post)) : LineCommentsEnd post :=
  List.IsChain.right_of_append h

/-- Before a token that is no line break there is no line comment. -/
theorem not_lineComment (h : LineCommentsEnd (pre ++ tok :: post))
    (htok : tok.isBreak = false) :
    ∀ a ∈ pre.getLast?, a.kind ≠ .lineComment := by
  intro a ha hcomment
  have hseam := (List.isChain_append.mp h).2.2 a ha tok rfl hcomment
  rw [htok] at hseam
  cases hseam

/-- A token is moved to the right, behind one that is no line comment. -/
theorem hop {gap back : List Token} {z : Token}
    (h : LineCommentsEnd (pre ++ tok :: (gap ++ z :: back)))
    (hbreak : tok.isBreak = false) (htok : tok.kind ≠ .lineComment)
    (hz : z.kind ≠ .lineComment) :
    LineCommentsEnd (pre ++ (gap ++ z :: tok :: back)) := by
  have hpre := h.not_lineComment hbreak
  have hrest : LineCommentsEnd (gap ++ [z] ++ back) := by
    rw [List.append_cons] at h
    simpa using h.right
  have hmoved : LineCommentsEnd (gap ++ [z] ++ tok :: back) := by
    refine put hrest.left hrest.right htok (Or.inr fun a ha => ?_)
    obtain rfl : z = a := by simpa using ha
    exact hz
  rw [List.append_cons gap z]
  exact List.IsChain.append h.left hmoved fun a ha _ _ hcomment =>
    absurd hcomment (hpre a ha)

end LineCommentsEnd

namespace Standard

open TreeLint.Tree (Spaced)

/-- White space, comments, the operators that open a line, and colons. -/
def isLexical (k : Kind) : Bool :=
  k.isTrivia || ChainWrapping.opensLine k || k == .colon

/-- Messages of corrections that can take away a line break. -/
def joinsLines (message : String) : Bool :=
  message == "Unexpected whitespace" || message == "Expected a single space" ||
    "Line must not begin with".toList.isPrefixOf message.toList

/-- A document as it should be: what is a token by its kind is one, and line
comments end their lines. -/
structure Orderly (f : Forest) : Prop where
  atomic : f.Atomic isLexical
  lineComments : LineCommentsEnd f.tokens

theorem Orderly.trivia {f : Forest} (h : Orderly f) : f.Atomic Kind.isTrivia :=
  fun l hl htest => h.atomic l hl (by simp [isLexical, htest])

section Corrections

variable {f g : Forest} {t u : Tree} {n newline : NodeId} {x : String}
  {pre post : List Token}

/-! ## White space -/

/-- White space with a line break may stand anywhere. -/
theorem orderly_of_spaced (hs : Spaced x f g) (hf : f.ids.Nodup)
    (hx : Tree.hasBreak x = true) (h : Orderly f) : Orderly g := by
  have hempty : x.isEmpty = false := by
    rw [Bool.eq_false_iff]
    intro hempty
    rw [String.isEmpty_iff.mp hempty] at hx
    cases hx
  refine ⟨hs.atomic hf h.atomic, ?_⟩
  rcases hs.tokens_cases hf hempty with hsame | ⟨pre, m, post, hg, hfrom⟩
  · exact hsame ▸ h.lineComments
  · have hparts : LineCommentsEnd pre ∧ LineCommentsEnd post := by
      rcases hfrom with hfrom | ⟨y, hfrom⟩
      · have hl := hfrom ▸ h.lineComments
        exact ⟨hl.left, hl.right⟩
      · have hl := hfrom ▸ h.lineComments
        rw [List.append_cons] at hl
        exact ⟨hl.left.left, hl.right⟩
    rw [hg]
    exact .put hparts.1 hparts.2 (by simp)
      (Or.inl (by simp [Token.isBreak, hx]))

/-- What comes last up to the end of a node is no line comment. -/
def EndsInCode (t : Tree) (n : NodeId) : Prop :=
  ∀ pre post, Forest.Around n t.document pre (t.subtree n) post →
    ∀ a ∈ (pre ++ (t.subtree n).tokens).getLast?, a.kind ≠ .lineComment

/-- Behind a node that does not end in a line comment white space need not
have a line break. -/
theorem orderly_spaceAfter (ht : t.Sound) (hend : EndsInCode t n)
    (hx : x.isEmpty = false) (hok : (t.spaceAfter n x).failure = none)
    (h : Orderly t.document) :
    Orderly (t.spaceAfter n x).tree.document := by
  refine ⟨(Tree.spaced_spaceAfter ht n x).atomic ht.nodup_document h.atomic, ?_⟩
  by_cases hn : n ∈ t.document.ids
  · obtain ⟨pre, post, ha⟩ := ht.around hn
    obtain ⟨m, rest, htokens, hrest⟩ := Tree.tokens_spaceAfter ht ha hx hok
    have hl := ha.tokens_eq ▸ h.lineComments
    have hright : LineCommentsEnd rest := by
      rcases hrest with rfl | ⟨space, -, rfl⟩
      · exact hl.right
      · rw [List.append_cons] at hl
        exact hl.right
    rw [htokens]
    exact .put hl.left hright (by simp) (Or.inr (hend pre post ha))
  · rw [Tree.document_spaceAfter_of_detached ht hn hx hok]
    exact h.lineComments

theorem endsInCode_of_kind {k : Kind} (ht : t.Sound) (h : Orderly t.document)
    (hk : t.hasKind n k = true) (hlexical : isLexical k = true)
    (hcode : k ≠ .lineComment) : EndsInCode t n := by
  intro pre post ha a hlast
  obtain ⟨y, hy⟩ := h.atomic.eq_token ht.nodup_document
    (ht.subtree?_document ha.mem) (beq_iff_eq.mp hk) hlexical
  rw [hy] at hlast
  obtain rfl : (⟨n, k, y⟩ : Token) = a := by simpa [Forest.tokens] using hlast
  exact hcode

/-- A node that something other than white space follows. -/
theorem endsInCode_of_next (ht : t.Sound) (h : Orderly t.document)
    (hsome : (t.nextLeaf? n).isSome = true)
    (hnext : (t.nextLeaf? n).filter (fun leaf => t.hasKind leaf .whitespace) =
      none) : EndsInCode t n := by
  intro pre post ha
  have htokens := ha.tokens_eq
  rw [Tree.nextLeaf?, (ht.tokens_of_around ha).2] at hsome hnext
  cases post with
  | nil => simp at hsome
  | cons tok rest =>
    have hmem : tok ∈ t.document.tokens := by simp [htokens]
    have hspace : tok.kind ≠ .whitespace := by
      intro hspace
      simp [(ht.hasKind_token hmem).mpr hspace] at hnext
    have hbreak : tok.isBreak = false := by simp [Token.isBreak, hspace]
    exact (htokens ▸ h.lineComments).not_lineComment hbreak

/-! ## Operators -/

theorem hasBreak_indent (t : Tree) (n : NodeId) :
    Tree.hasBreak (t.indent n) = true := by
  simp [Tree.hasBreak, Tree.indent]

/-- A call operator comes to stand behind a line break, and leaves no line
comment without one. -/
theorem orderly_moveAfter (ht : t.Sound) (h : Orderly t.document)
    (hn : n ∈ t.document.ids) (hk : t.kindIs n ChainWrapping.opensLine = true)
    (hbreak : ChainWrapping.breakAfter? t n = some newline)
    (hok : (t.moveAfter n newline).failure = none) :
    Orderly (t.moveAfter n newline).tree.document := by
  obtain ⟨p, i, pre, gap, tok, back, front, z, hdoc, hsplit, hnew, -, -,
      hlast, rfl⟩ :=
    tokens_openLine ht h.trivia hn hbreak hok
  have hsub := ht.subtree?_document hn
  refine ⟨?_, ?_⟩
  · rw [hdoc]
    exact (h.atomic.remove ht.nodup_document hsub).insertUnder
      (h.atomic.subtree ht.nodup_document hsub) p i
  -- the operator is a token, and the line break another one
  obtain ⟨k, hkind, hopens⟩ := kind_of_kindIs hk
  obtain ⟨y, hy⟩ := h.atomic.eq_token ht.nodup_document hsub hkind
    (by simp [isLexical, hopens])
  have hz : z.kind = .whitespace := by
    have hmem : z ∈ t.document.tokens := by simp [hsplit, hlast]
    have hspace :=
      (Bool.and_eq_true_iff.mp (Option.filter_eq_some_iff.mp hbreak).2).1
    have hspace := (Bool.and_eq_true_iff.mp hspace).1
    exact (ht.hasKind_token hmem).mp hspace
  have hcode : k ≠ .whitespace ∧ k ≠ .lineComment := by
    revert hopens
    cases k <;> decide
  rw [hy] at hsplit hnew hlast
  rcases List.eq_nil_or_concat' gap with rfl | ⟨gap, z', rfl⟩
  · rw [List.append_nil] at hlast
    obtain rfl : (⟨n, k, y⟩ : Token) = z := by
      simpa [Forest.tokens] using congrArg List.getLast? hlast
    exact absurd hz hcode.1
  · rw [← List.append_assoc] at hlast
    obtain rfl : z' = z := by simpa using (List.append_inj' hlast rfl).2
    have hl := hsplit ▸ h.lineComments
    rw [hnew]
    have hhop : LineCommentsEnd
        (pre ++ (gap ++ z' :: ⟨n, k, y⟩ :: (tok :: back))) := by
      refine LineCommentsEnd.hop (by simpa [Forest.tokens] using hl) ?_ hcode.2
        (by simp [hz])
      simp [Token.isBreak, hcode.1]
    simpa [Forest.tokens] using hhop

/-- An operator that is taken to the next line leaves line comments in
order. -/
theorem orderly_openLine {indentation : Indentation} (ht : t.Consistent)
    (h : Orderly t.document) (hn : n ∈ t.document.ids)
    (hk : t.kindIs n ChainWrapping.opensLine = true)
    (hbreak : ChainWrapping.breakAfter? t n = some newline)
    (hok : Op.Succeed (ChainWrapping.openLine indentation t n newline) t u) :
    Orderly u.document := by
  unfold ChainWrapping.openLine at hok
  split at hok
  · next helvis =>
    have hconsistent :=
      ht.apply (.spaceBefore n (indentation.childOf (t.indent n)))
    obtain _ | ⟨hbefore, _ | ⟨hafter, ⟨⟩⟩⟩ := hok
    have hspaced := Tree.spaced_spaceBefore ht.sound n
      (indentation.childOf (t.indent n))
    have hmiddle := orderly_of_spaced hspaced ht.sound.nodup_document
      (by simp [Indentation.childOf, Tree.hasBreak_append, hasBreak_indent]) h
    -- it is still an elvis operator behind the line break
    have hstill := ((Op.Succeed.cons hbefore (.nil _)).keepsKinds ht).hasKind
      ht.sound hconsistent.sound helvis
    exact orderly_spaceAfter hconsistent.sound
      (endsInCode_of_kind hconsistent.sound hmiddle hstill rfl (by decide)) rfl
        (Edited.failure_eq_none hafter)
      hmiddle
  · obtain _ | ⟨hmove, ⟨⟩⟩ := hok
    exact orderly_moveAfter ht.sound h hn hk hbreak
      (Edited.failure_eq_none hmove)

/-! ## Corrections -/

/-- **Every correction** that does not join lines keeps a document in order. -/
theorem orderly_of_correction {message : String} {ops : List Op}
    (ht : t.Consistent) (c : Correction t message ops)
    (hsafe : joinsLines message = false) (hok : Op.Succeed ops t u)
    (h : Orderly t.document) : Orderly u.document := by
  cases c with
  | blankLine =>
    rw [hok.eq_run]
    exact orderly_of_spaced (Tree.spaced_spaceBefore ht.sound _ _)
      ht.sound.nodup_document
      (by simp [Tree.hasBreak_append, hasBreak_indent]) h
  | opens indentation hn _ hk hbreak =>
    exact orderly_openLine ht h (ht.sound.mem_document_iff.mpr hn) hk hbreak hok
  | closes => simp [joinsLines, String.toList_append] at hsafe
  | removed => simp [joinsLines] at hsafe
  | single => simp [joinsLines] at hsafe
  | missing hk hnext =>
    obtain _ | ⟨hok, ⟨⟩⟩ := hok
    refine orderly_spaceAfter ht.sound ?_ rfl (Edited.failure_eq_none hok) h
    rcases hk with hcolon | hsome
    · exact endsInCode_of_kind ht.sound h hcolon rfl (by decide)
    · exact endsInCode_of_next ht.sound h hsome hnext

end Corrections

theorem upkeep_orderly {σ : Type} :
    Upkeep (Corrects (σ := σ)) (fun message => joinsLines message = false)
    (OnDocuments fun f g => Orderly f → Orderly g) :=
  upkeep_onDocuments (fun _ => id) (fun hfg hgh hf => hgh (hfg hf))
      fun ht c hsafe hok h =>
    orderly_of_correction ht c hsafe hok h

end Standard

/-- **Line comments end their lines after formatting, unless lines were
joined.** Let white space, comments, call operators, elvis operators and
colons be tokens, and let every line comment be the last token or be
followed by a line break. However the standard rules are configured and
whatever may be corrected, that is so afterwards as well, if no violation
with a message of `Standard.joinsLines` was corrected. Specification, §13.
-/
theorem line_comments_end_without_joining {σ : Type} [Inhabited σ]
    (w w' : Session σ) (fuel : Nat) (policy : Policy) (s : Settings)
    (f : Formatted)
    (hreg : Registry.ofProviders w.engine.registry.id Standard.providers =
      .ok w.engine.registry)
    (ht : w.tree.Reachable) (ha : w.tree.document.Atomic Standard.isLexical)
    (hend : LineCommentsEnd w.tree.document.tokens)
    (h : w.format fuel policy s = some (w', .ok f))
    (hsafe : ∀ v ∈ f.violations, v.corrected = true →
      Standard.joinsLines v.message = false) :
    LineCommentsEnd w'.tree.document.tokens := by
  have hkept := Standard.upheld_format Standard.upkeep_orderly hreg ht h
    (Or.inr ⟨f, rfl, hsafe⟩)
  exact (hkept ⟨ha, hend⟩).lineComments

/-- In the file `a. // c⏎b` the operator gets to the next line, behind the
comment. -/
theorem line_comments_end_without_joining_call :
    let t := Tree.build .file
      [.token .identifier "a", .token .dot ".", .token .whitespace " ",
        .token .lineComment "// c",
        .token .whitespace "\n", .token .identifier "b"]
    ∃ w' f, (Session.standard t).format 20 Policy.all {} = some (w', .ok f) ∧
      w'.tree.toText = "a // c\n.b" ∧
          LineCommentsEnd w'.tree.document.tokens := by
  intro t
  have hreach : t.Reachable := ⟨_, _, [], rfl⟩
  have hrun : ((Session.standard t).format 20 Policy.all {}).map
      (fun p => (p.1.tree.toText, p.2.toOption.map fun f =>
        f.violations.map fun v => v.message)) =
        some ("a // c\n.b", some ["Line must not end with \".\""]) := by
          decide +kernel
  obtain ⟨⟨w', r⟩, h, hrun⟩ := Option.map_eq_some_iff.mp hrun
  obtain ⟨htext, hmessages⟩ := Prod.mk.inj hrun
  cases r with
  | error e => cases hmessages
  | ok f =>
    have hmessages : f.violations.map (fun v => v.message) =
        ["Line must not end with \".\""] :=
      Option.some.inj hmessages
    have hsafe : ∀ v ∈ f.violations, v.corrected = true →
        Standard.joinsLines v.message = false := by
      intro v hv _
      have hmem := List.mem_map_of_mem (f := fun v => v.message) hv
      rw [hmessages, List.mem_singleton] at hmem
      rw [hmem]
      decide +kernel
    exact ⟨w', f, h, htext, line_comments_end_without_joining
      (Session.standard t) w' 20 Policy.all {} f
      (Session.ofProviders_standard t) hreach (by decide +kernel)
        (by decide +kernel) h hsafe⟩

/-- In the file `(a// c⏎, b)` the line break before the comma is removed. -/
theorem comma_in_line_comment :
    let t := Tree.build .file
      [.start .parameterList, .token .leftParen "(", .start .parameter,
        .token .identifier "a", .finish,
        .token .lineComment "// c", .token .whitespace "\n", .token .comma ",",
          .token .whitespace " ",
        .start .parameter, .token .identifier "b", .finish,
          .token .rightParen ")"]
    t.document.Atomic Standard.isLexical ∧ LineCommentsEnd t.document.tokens ∧
      ((Session.standard t).format 20 Policy.all {}).map
        (fun p => (p.1.tree.toText,
          decide (LineCommentsEnd p.1.tree.document.tokens))) =
        some ("(a// c, b)", false) := by
  decide +kernel

end TreeLint
