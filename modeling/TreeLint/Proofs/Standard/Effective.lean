import TreeLint.Proofs.Lint.Alone
import TreeLint.Proofs.Standard.LineBreaks

/-!
# Operators that were corrected

An operator that is reported is corrected if the policy agrees to all
corrections. Is it fine then? The rule itself is the judge: it is called
once more for the operator, in the file that the correction left. What the
rule looks at is the line break beside the operator, and whether the
operator is a sign or spreads an array. The second depends on the code
before the operator, which is the same in the same order, and on the nodes
around it.

Operators that are taken to the next line are fine afterwards. Of those that
are taken to the line before, the rule reports exactly the ones again whose
line break outlasted the correction, and corrects them once more
(`operator_correction_effective`). It can go on like that until there are no
passes left (`break_moved_along`).

Specification, §13: where operators may stand at the ends of lines.
-/

namespace TreeLint

variable {σ : Type} {t u v : Tree} {n newline : NodeId}
  {front back : List Token} {tok : Token}

namespace Standard.ChainWrapping

/-! ## The rule asked once more -/

/-- Whether the rule has something to report about an operator. -/
def reports (t : Tree) (n : NodeId) : Bool :=
  if t.kindIs n opensLine then (breakAfter? t n).isSome
  else (breakBefore? t n).isSome

/-- The code in front of a token. -/
theorem any_prevCodeLeaf (h : t.Sound) (ha : t.document.Atomic Kind.isTrivia)
    (hl : t.document.tokens = front ++ tok :: back) (test : Kind → Bool) :
    (t.prevCodeLeaf? tok.id).any (fun prev => t.kindIs prev test) =
      (front.filter fun a => !a.kind.isTrivia).getLast?.any fun a =>
        test a.kind := by
  have hmem : ∀ a ∈ front, a ∈ t.document.tokens := by
    intro a ha
    simp [hl, ha]
  have hfind : front.reverse.find? t.isCodeToken =
      (front.filter fun a => !a.kind.isTrivia).getLast? := by
    rw [List.find?_congr fun a ha' =>
      h.isCodeToken_eq ha (hmem a (List.mem_reverse.mp ha')),
      ← List.head?_filter,
      List.filter_reverse, List.head?_reverse]
  rw [Tree.prevCodeLeaf?, (h.tokens_of_around (h.around_of_tokens hl)).1, hfind,
    Option.any_map]
  refine any_congr fun a ha => ?_
  have hin := hmem a (List.mem_filter.mp (List.mem_of_getLast? ha)).1
  show t.kindIs a.id test = test a.kind
  rw [Tree.kindIs, (h.of_mem_tokens hin).2.1, Option.any_some]

theorem mem_tokens_of_code (hcode : u.code = t.code)
    (htok : tok ∈ t.document.tokens) (hk : tok.kind.isTrivia = false) :
    tok ∈ u.document.tokens := by
  have hin : tok ∈ t.code := List.mem_filter.mpr ⟨htok, by simp [hk]⟩
  rw [← hcode] at hin
  exact (List.mem_filter.mp hin).1

/-- If the code is the same, the same asterisks spread arrays. -/
theorem isSpread_of_code (ht : t.Tidy isOperator) (hu : u.Tidy isOperator)
    (hcode : u.code = t.code) (hl : t.document.tokens = front ++ tok :: back)
    (hk : tok.kind.isTrivia = false) :
    isSpread u tok.id = isSpread t tok.id := by
  have htok : tok ∈ u.document.tokens :=
    mem_tokens_of_code hcode (by simp [hl]) hk
  obtain ⟨front', back', hl'⟩ := List.append_of_mem htok
  have hkind : u.hasKind tok.id .times = t.hasKind tok.id .times := by
    rw [Tree.hasKind, Tree.hasKind, (hu.sound.of_mem_tokens htok).2.1,
      (ht.sound.of_mem_tokens (by simp [hl] : tok ∈ t.document.tokens)).2.1]
  -- the operator is at one place in the code
  have hnodup : (t.code.map Token.id).Nodup :=
    (Forest.nodup_tokens ht.sound.nodup_document).sublist
      (List.filter_sublist.map Token.id)
  have hfront : (front'.filter fun a => !a.kind.isTrivia) =
      front.filter fun a => !a.kind.isTrivia := by
    have hold : t.code = (front.filter fun a => !a.kind.isTrivia) ++ tok ::
        back.filter fun a => !a.kind.isTrivia := by
      rw [Tree.code, hl, List.filter_append,
        List.filter_cons_of_pos (by simp [hk])]
    have hnew : t.code =
        (front'.filter fun a => !a.kind.isTrivia) ++ tok :: back'.filter
            fun a => !a.kind.isTrivia := by
      rw [← hcode, Tree.code, hl', List.filter_append,
        List.filter_cons_of_pos (by simp [hk])]
    exact (Forest.cut_unique hnodup hnew hold).1
  rw [isSpread, isSpread, hkind,
    any_prevCodeLeaf hu.sound (atomic_trivia hu) hl',
    any_prevCodeLeaf ht.sound (atomic_trivia ht) hl, hfront]

/-- An operator that is not moved stays a sign, or none. -/
theorem isSign_of_steady (h : t.Steady (fun _ => False) u) (ht : t.Sound)
    (hu : u.Sound) (hn : n ∈ t.document.ids) (hn' : n ∈ u.document.ids) :
    isSign u n = isSign t n := by
  have hparent : u.parent? n = t.parent? n := h.parent n hn hn' id
  have hmem : ∀ p, t.parent? n = some p → p ∈ t.document.ids ∧
      p ∈ u.document.ids := fun p hp =>
    ⟨ht.parent_mem_document hn hp,
      hu.parent_mem_document hn' (hparent.trans hp)⟩
  have habove : (t.parent? n).bind u.parent? = (t.parent? n).bind t.parent? :=
    Option.bind_congr fun p hp => h.parent p (hmem p hp).1 (hmem p hp).2 id
  rw [isSign, isSign, h.kindIs hn hn', hparent, habove]
  congr 1
  refine any_congr fun grandparent hg => ?_
  obtain ⟨p, hp, hg⟩ := Option.bind_eq_some_iff.mp hg
  obtain ⟨hpt, hpu⟩ := hmem p hp
  have hgu := hu.parent_mem_document hpu ((h.parent p hpt hpu id).trans hg)
  rw [Tree.hasKind, Tree.hasKind,
    (h.label grandparent (ht.parent_mem_document hpt hg) hgu).1]

/-- Where an operator stands that is to be taken to the line before. -/
theorem exists_break (ht : t.Tidy isOperator) (hn : n ∈ t.document.ids)
    (hk : t.kindIs n closesLine = true)
    (hbreak : breakBefore? t n = some newline) :
    ∃ front br tok back, t.document.tokens = front ++ br :: tok :: back ∧
      br.id = newline ∧ tok.id = n ∧
      br.isBreak = true ∧ closesLine tok.kind = true ∧ isSpread t n = false ∧
        isSign t n = false := by
  obtain ⟨-, hleaf, -⟩ := isOperator_token ht hn (isOperator_of_closesLine hk)
  obtain ⟨before, tok, back, hl, rfl⟩ :=
    ht.sound.exists_token (ht.sound.mem_document_iff.mp hn) hleaf
  unfold breakBefore? at hbreak
  split at hbreak
  · cases hbreak
  · next hnone =>
    obtain ⟨hspread, hsign⟩ := not_or.mp (Bool.or_eq_true _ _ ▸ hnone)
    obtain ⟨hprev, hnewline⟩ := Option.filter_eq_some_iff.mp hbreak
    rw [(ht.sound.leaves_of_tokens hl).2] at hprev
    obtain ⟨br, hlast, rfl⟩ := Option.map_eq_some_iff.mp hprev
    obtain ⟨front, rfl⟩ := List.getLast?_eq_some_iff.mp hlast
    have hmem : br ∈ t.document.tokens := by simp [hl]
    have hkind : closesLine tok.kind = true := by
      rwa [Tree.kindIs,
        (ht.sound.of_mem_tokens (by simp [hl] : tok ∈ t.document.tokens)).2.1,
        Option.any_some] at hk
    exact ⟨front, br, tok, back, by simp [hl], rfl, rfl,
      (isBreak_token ht.sound hmem).symm.trans hnewline, hkind,
      Bool.eq_false_iff.mpr hspread, Bool.eq_false_iff.mpr hsign⟩

/-- **Asked again about an operator that it took to the line before**, the
rule finds the line break that has outlasted the correction, or nothing. -/
theorem reports_closeLine (ht : t.Tidy isOperator) (hn : n ∈ t.document.ids)
    (hk : t.kindIs n closesLine = true)
    (hbreak : breakBefore? t n = some newline)
    (h : Op.Succeed (closeLine t n newline) t u) :
    (breakBefore? u n).isSome = outlasts t n newline ∧ u.text n = t.text n := by
  obtain ⟨front, br, tok, back, hl, rfl, rfl, hbr, hkind, hspread, hsign⟩ :=
    exists_break ht hn hk hbreak
  have hl' : t.document.tokens = (front ++ [br]) ++ tok :: back := by simp [hl]
  have htrivia : tok.kind.isTrivia = false := by
    revert hkind
    cases tok.kind <;> decide
  have hr := reaction_closeLine ht hn hk hbreak h
  have hcons := h.consistent ht.consistent
  have hn' := hr.mem ht.sound hcons.sound hn
  have hu : u.Tidy isOperator :=
    ht.steady (hr.steady ht.sound hcons.sound hn) hcons
  have hcode : u.code = t.code :=
    (keeps_closeLine ht.consistent hn hk hbreak h (atomic_trivia ht)).code
  obtain ⟨hbreaks, hsteady⟩ := breaks_closeLine ht hl hkind hbr h
  refine ⟨?_, ?_⟩
  · unfold breakBefore?
    cases hout : outlasts t tok.id br.id with
    | false =>
      split
      · rfl
      · rw [Option.isSome_filter, hbreaks, hout]
    | true =>
      rw [isSpread_of_code ht hu hcode hl' htrivia, hspread,
        isSign_of_steady (hsteady hout) ht.sound hu.sound hn hn',
        hsign]
      show ((u.prevLeaf? tok.id).filter u.isBreak).isSome = true
      rw [Option.isSome_filter, hbreaks, hout]
  · have htok : tok ∈ t.document.tokens := by simp [hl]
    rw [ht.sound.text_token htok,
      hu.sound.text_token (mem_tokens_of_code hcode htok htrivia)]

/-- A space behind an elvis operator counts as something that follows on its
line. -/
theorem isElvisBeforeComment_spaceAfter (hv : v.Tidy isOperator)
    (hn : n ∈ v.document.ids) (hk : v.hasKind n .elvis = true)
    (h : Op.Succeed [.spaceAfter n " "] v u) :
    isElvisBeforeComment u n = true := by
  have hu := h.consistent hv.consistent
  have hkind := (h.keepsKinds hv.consistent).hasKind hv.sound hu.sound hk
  have hleaf : v.isLeaf n = true := hv.isLeaf_of_kind hn (beq_iff_eq.mp hk) rfl
  obtain ⟨front, tok, back, hl, rfl⟩ :=
    hv.sound.exists_token (hv.sound.mem_document_iff.mp hn) hleaf
  have hnew : ∃ m rest, u.document.tokens =
      front ++ tok :: ⟨m, .whitespace, " "⟩ :: rest := by
    obtain _ | ⟨hok, ⟨⟩⟩ := h
    have har := hv.sound.around_of_tokens hl
    have hsub := hv.sound.subtree_eq har
    rw [← hsub] at har
    obtain ⟨m, rest, hnew, -⟩ :=
      Tree.tokens_spaceAfter hv.sound har rfl (Edited.failure_eq_none hok)
    rw [hsub, List.append_assoc] at hnew
    exact ⟨m, rest, hnew⟩
  obtain ⟨m, rest, hl'⟩ := hnew
  have hspace : u.isInlineSpace m = true := by
    have hmem : (⟨m, .whitespace, " "⟩ : Token) ∈
        u.document.tokens := by simp [hl']
    obtain ⟨-, hmk, hmt⟩ := hu.sound.of_mem_tokens hmem
    rw [Tree.isInlineSpace, Tree.hasKind, hmk, hmt]
    simp [Tree.hasBreak]
  have hnext : u.nextLeaf? tok.id = some m := (hu.sound.leaves_of_tokens hl').1
  unfold isElvisBeforeComment
  rw [hnext, Option.any_some, hspace, hkind]
  rfl

/-- **Asked again about an operator that it took to the next line**, the
rule finds nothing. -/
theorem breakAfter?_openLine {indentation : Indentation}
    (ht : t.Tidy isOperator) (hn : n ∈ t.document.ids)
    (hk : t.kindIs n opensLine = true) (hbreak : breakAfter? t n = some newline)
    (h : Op.Succeed (openLine indentation t n newline) t u) :
    breakAfter? u n = none := by
  have hr := reaction_openLine ht hn hk hbreak h
  have hcons := h.consistent ht.consistent
  have hu : u.Tidy isOperator :=
    ht.steady (hr.steady ht.sound hcons.sound hn) hcons
  unfold openLine at h
  split at h
  · next helvis =>
    obtain _ | ⟨hok, hafter⟩ := h
    have hx : (indentation.childOf (t.indent n)).isEmpty = false := by
      simp [String.isEmpty_eq_false_iff, Indentation.childOf, Tree.indent]
    have hone : Op.Succeed [.spaceBefore n (indentation.childOf (t.indent n))] t
        (t.spaceBefore n (indentation.childOf (t.indent n))).tree :=
          .cons hok (.nil _)
    have hplain : Plain t [.spaceBefore n (indentation.childOf (t.indent n))] :=
      .spaceBefore hn hx .nil
    have hv := ht.steady (hplain.steady ht (List.Subset.refl _) (by simp) hone)
      (hone.consistent ht.consistent)
    have hn' := Tree.document_subset_spaceBefore ht.sound n hx hn
    have helvis' := (hone.keepsKinds ht.consistent).hasKind ht.sound
      hv.sound helvis
    unfold breakAfter?
    rw [isElvisBeforeComment_spaceAfter hv hn' helvis' hafter]
    simp
  · next helvis =>
    obtain ⟨-, hleaf, -⟩ := isOperator_token ht hn (isOperator_of_opensLine hk)
    obtain _ | ⟨hok, ⟨⟩⟩ := h
    exact breakAfter?_of_resting hu.sound (atomic_trivia hu)
      (resting_openLine ht.sound (atomic_trivia ht) hn hleaf
      (isCall_of_opensLine hk (Bool.eq_false_iff.mpr helvis)) hbreak
        (Edited.failure_eq_none hok))

/-! ## Calls -/

/-- An operator is a token, and no comment has it inside. -/
theorem inComment_operator (ht : t.Tidy isOperator) (hn : n ∈ t.document.ids)
    (hk : t.kindIs n isOperator = true) :
    t.inComment n = false := by
  have hcomments : t.document.Atomic Kind.isComment :=
    fun l hl hcomment => ht.atomic l hl (by simp [Kind.isTrivia, hcomment])
  have hown : t.kindIs n Kind.isComment = false :=
    kindIs_eq_false hk fun k => by cases k <;> decide
  rw [Tree.inComment, hown, Bool.false_or, List.any_eq_false]
  intro a ha
  simp [ht.sound.kindIs_ancestor hcomments hn ha]

/-- The rule has nothing to say about an operator that it does not report.
-/
theorem silent_before (ht : t.Tidy isOperator) (hn : n ∈ t.document.ids)
    (hk : t.kindIs n isOperator = true) (hreports : reports t n = false)
    (indentation : Indentation) (memory : σ) :
    (before indentation n memory).Silent memory t := by
  unfold reports at hreports
  show (if t.inComment n then _ else _ : Hook σ).Silent memory t
  rw [inComment_operator ht hn hk, if_neg Bool.false_ne_true]
  split at hreports
  · next hopens =>
    have hnone : breakAfter? t n = none := by simpa using hreports
    rw [if_pos hopens, hnone]
    rfl
  · next hopens =>
    have hnone : breakBefore? t n = none := by simpa using hreports
    rw [if_neg hopens, hnone]
    split <;> rfl

variable {s : Scene}

/-- A planned correction that is ready is made. -/
theorem run_planned {ops : List Op} (ht : s.tree.Consistent)
    (hplan : Plan s.tree ops) (hready : ∀ op ∈ ops, op.Ready s.tree)
    (rule : RuleId) (offset : Nat) (message : String) (memory : σ) :
    ∃ u, Op.Succeed ops s.tree.begin u ∧
      (Hook.correct offset message ops memory).run Policy.all rule s =
      ({ s.answered rule offset message true true with
        tree := u.commit s.tree.checkpoint }, .finished memory) := by
  obtain ⟨u, hu⟩ :=
    (hplan.succeeds_iff ht.begin ⟨ht.sound, ht.begin.sound, rfl⟩).mpr hready
  refine ⟨u, hu, ?_⟩
  have hask : Policy.all s.asked rule offset = .answer true := rfl
  have hbegin : (s.answered rule offset message true true).tree.begin =
      s.tree.begin := rfl
  simp only [Hook.correct, Hook.run, Hook.report_of_answer hask, Bool.and_true,
    if_true, hbegin,
    Fix.run_ofOps memory hu]
  rfl

/-- What a call does about an operator that ends a line, if corrections are
allowed. -/
theorem run_openLine (ht : s.tree.Tidy isOperator)
    (hn : n ∈ s.tree.document.ids) (hk : s.tree.kindIs n opensLine = true)
    (hbreak : breakAfter? s.tree n = some newline) (indentation : Indentation)
    (rule : RuleId) (memory : σ) :
    ∃ u, Op.Succeed (openLine indentation s.tree n newline) s.tree.begin u ∧
      (before indentation n memory).run Policy.all rule s =
        ({ s.answered rule (s.tree.startOffset n)
             ("Line must not end with \"" ++ s.tree.text n ++ "\"") true
            true with tree := u.commit s.tree.checkpoint },
              .finished memory) := by
  have hplan := plan_openLine hn
    (breakAfter_mem_document ht.sound hn hbreak) indentation
  have hop : s.tree.kindIs n isOperator = true := isOperator_of_opensLine hk
  obtain ⟨u, hu, hrun⟩ := run_planned ht.consistent hplan
    (ready_openLine ht hn hk hbreak indentation) rule
    (s.tree.startOffset n) ("Line must not end with \"" ++ s.tree.text n ++
      "\"") memory
  refine ⟨u, hu, ?_⟩
  rw [← hrun]
  simp only [before, Hook.run, inComment_operator ht hn hop, hk, hbreak,
    if_true, if_false, Bool.false_eq_true]

/-- No operator is expected both to open and to close a line. -/
theorem opensLine_of_closesLine (hk : t.kindIs n closesLine = true) :
    t.kindIs n opensLine = false :=
  kindIs_eq_false hk fun k => by cases k <;> decide

/-- What it does about one that starts a line. -/
theorem run_closeLine (ht : s.tree.Tidy isOperator)
    (hn : n ∈ s.tree.document.ids) (hk : s.tree.kindIs n closesLine = true)
    (hbreak : breakBefore? s.tree n = some newline) (indentation : Indentation)
    (rule : RuleId) (memory : σ) :
    ∃ u, Op.Succeed (closeLine s.tree n newline) s.tree.begin u ∧
      (before indentation n memory).run Policy.all rule s =
        ({ s.answered rule (s.tree.startOffset n)
             ("Line must not begin with \"" ++ s.tree.text n ++ "\"") true
            true with tree := u.commit s.tree.checkpoint },
              .finished memory) := by
  have hplan := plan_closeLine ht.sound hn
    (breakBefore_mem_document ht.sound hn hbreak)
  have hop : s.tree.kindIs n isOperator = true := isOperator_of_closesLine hk
  have hopens : s.tree.kindIs n opensLine = false := opensLine_of_closesLine hk
  obtain ⟨u, hu, hrun⟩ := run_planned ht.consistent hplan
    (ready_closeLine ht hn hk hbreak) rule
    (s.tree.startOffset n) ("Line must not begin with \"" ++ s.tree.text n ++
      "\"") memory
  refine ⟨u, hu, ?_⟩
  rw [← hrun]
  simp only [before, Hook.run, inComment_operator ht hn hop, hopens, hk, hbreak,
    if_true, if_false, Bool.false_eq_true]

/-- What the next call finds: a tidy file with the operator in it. -/
theorem tidy_closed {ops : List Op} (ht : t.Tidy isOperator)
    (hn : n ∈ t.document.ids) (hu : Op.Succeed ops t.begin u)
    (hr : Tree.Reaction Resting n t.begin u) (c : Checkpoint) :
    (u.commit c).Tidy isOperator ∧ n ∈ (u.commit c).document.ids ∧
      ∀ test, (u.commit c).kindIs n test = t.kindIs n test := by
  have hcons := hu.consistent ht.consistent.begin
  have hclosed := hr.closed ht hcons.sound hn c
  have hsound : (u.commit c).Sound := (hcons.close c).sound
  have hs := hclosed.steady ht.sound hsound hn
  have hn' := hclosed.mem ht.sound hsound hn
  exact ⟨ht.steady hs (hcons.close c), hn', hs.kindIs hn hn'⟩

/-- An operator that the rule reports again after the correction. -/
def persists (t : Tree) (n : NodeId) : Bool :=
  t.kindIs n closesLine && (breakBefore? t n).any (outlasts t n)

/-- An operator that was taken to the next line does not persist. -/
theorem persists_of_opensLine (hk : t.kindIs n opensLine = true) :
    persists t n = false := by
  have hcloses : t.kindIs n closesLine = false := kindIs_eq_false hk fun k => by
    cases k <;> decide
  rw [persists, hcloses, Bool.false_and]

theorem opensLine_or_closesLine (hk : t.kindIs n isOperator = true) :
    t.kindIs n opensLine = true ∨ t.kindIs n closesLine = true := by
  obtain ⟨k, hkind, hop⟩ := kind_of_kindIs hk
  rw [Tree.kindIs, Tree.kindIs, Tree.kind?, hkind, Option.any_some,
    Option.any_some]
  exact Bool.or_eq_true_iff.mp hop

section Called

variable {s' : Scene} {v : Violation} {e : HookEnd σ} {memory : σ}
  {rule : RuleId} {indentation : Indentation} (ht : s.tree.Tidy isOperator)
  (hn : n ∈ s.tree.document.ids)
  (hrun : (before indentation n memory).run Policy.all rule s = (s', e))
  (hreport : s'.violations = s.violations ++ [v])

include ht hn hrun hreport

theorem reports_of_run (hk : s.tree.kindIs n isOperator = true) :
    reports s.tree n = true := by
  rw [← Bool.not_eq_false]
  intro hreports
  rw [(silent_before ht hn hk hreports indentation memory).run rfl] at hrun
  obtain ⟨rfl, -⟩ := Prod.mk.inj hrun
  simp at hreport

/-- Called again for an operator that it took to the next line, the rule has
nothing to report. -/
theorem silent_after_openLine (hk : s.tree.kindIs n opensLine = true)
    (memory' : σ) :
    v.corrected = true ∧ (before indentation n memory').Silent memory'
      s'.tree := by
  have hop : s.tree.kindIs n isOperator = true := isOperator_of_opensLine hk
  have hreports := reports_of_run ht hn hrun hreport hop
  rw [reports, if_pos hk] at hreports
  obtain ⟨newline, hbreak⟩ := Option.isSome_iff_exists.mp hreports
  obtain ⟨u, hu, hrun'⟩ := run_openLine ht hn hk hbreak indentation rule memory
  rw [hrun] at hrun'
  obtain ⟨rfl, -⟩ := Prod.mk.inj hrun'
  obtain rfl := List.singleton_inj.mp (List.append_cancel_left hreport)
  have htidy : s.tree.begin.Tidy isOperator :=
    ⟨ht.consistent.begin, ht.file, ht.atomic⟩
  have hr := reaction_openLine (t := s.tree.begin) htidy hn hk hbreak hu
  obtain ⟨hafter, hn', hkinds⟩ := tidy_closed ht hn hu hr s.tree.checkpoint
  have hnone : breakAfter? u n = none :=
    breakAfter?_openLine (t := s.tree.begin) htidy hn hk hbreak hu
  refine ⟨rfl, silent_before hafter hn' ((hkinds _).trans hop) ?_
    indentation memory'⟩
  rw [reports, hkinds, if_pos hk]
  show (breakAfter? u n).isSome = false
  rw [hnone]
  rfl

/-- Called again for an operator that it took to the line before, the rule
reports it again if a line break has outlasted the correction, and only
then. -/
theorem call_after_closeLine (hk : s.tree.kindIs n closesLine = true)
    (memory' : σ) :
    v.corrected = true ∧
      (persists s.tree n = false →
        (before indentation n memory').Silent memory' s'.tree) ∧
      (persists s.tree n = true → ∀ rule', ∃ s'' v',
        (before indentation n memory').run Policy.all rule' s' =
          (s'', .finished memory') ∧
          s''.violations = s'.violations ++ [v'] ∧ v'.message = v.message ∧
            v'.corrected = true) := by
  have hop : s.tree.kindIs n isOperator = true := isOperator_of_closesLine hk
  have hopens : s.tree.kindIs n opensLine = false := opensLine_of_closesLine hk
  have hreports := reports_of_run ht hn hrun hreport hop
  rw [reports, hopens, if_neg Bool.false_ne_true] at hreports
  obtain ⟨newline, hbreak⟩ := Option.isSome_iff_exists.mp hreports
  have hpersists : persists s.tree n = outlasts s.tree n newline := by
    simp [persists, hk, hbreak]
  obtain ⟨u, hu, hrun'⟩ := run_closeLine ht hn hk hbreak indentation rule memory
  rw [hrun] at hrun'
  obtain ⟨rfl, -⟩ := Prod.mk.inj hrun'
  obtain rfl := List.singleton_inj.mp (List.append_cancel_left hreport)
  have htidy : s.tree.begin.Tidy isOperator :=
    ⟨ht.consistent.begin, ht.file, ht.atomic⟩
  have hr := reaction_closeLine (t := s.tree.begin) htidy hn hk hbreak hu
  obtain ⟨hafter, hn', hkinds⟩ := tidy_closed ht hn hu hr s.tree.checkpoint
  obtain ⟨hsome, htext⟩ :=
    reports_closeLine (t := s.tree.begin) htidy hn hk hbreak hu
  rw [hpersists]
  refine ⟨rfl, fun hout => ?_, fun hout rule' => ?_⟩
  · refine silent_before hafter hn' ((hkinds _).trans hop) ?_
      indentation memory'
    rw [reports, hkinds, hopens, if_neg Bool.false_ne_true]
    exact hsome.trans hout
  · obtain ⟨newline', hbreak'⟩ := Option.isSome_iff_exists.mp (hsome.trans hout)
    obtain ⟨u', -, hagain⟩ := run_closeLine (s := { s.answered .. with
      tree := u.commit s.tree.checkpoint }) hafter hn'
      ((hkinds _).trans hk) hbreak' indentation rule' memory'
    refine ⟨_, _, hagain, Scene.answered_violations .., ?_, rfl⟩
    have htext' : u.text n = s.tree.text n := htext
    show "Line must not begin with \"" ++ u.text n ++ "\"" =
      "Line must not begin with \"" ++ s.tree.text n ++ "\""
    rw [htext']

end Called

end Standard.ChainWrapping

open Standard (isOperator)
open Standard.ChainWrapping
  (before info persists persists_of_opensLine opensLine_or_closesLine
    silent_after_openLine
  call_after_closeLine)

/-- **An operator that is reported is corrected.** Called once more for it,
whatever the policy, the rule has nothing to report and changes nothing,
unless a line break outlasted the correction. Then it reports the operator
again with the same message, and corrects it again. Specification, §13. -/
theorem operator_correction_effective {s s' : Scene} {v : Violation}
    {e : HookEnd σ} (indentation : Indentation) (rule : RuleId) (memory : σ)
    (ht : s.tree.Reachable) (hfile : s.tree.hasKind Tree.root .file = true)
    (ha : s.tree.document.Atomic fun k => k.isTrivia || isOperator k)
    (hn : s.tree.isAttached n = true) (hk : s.tree.kindIs n isOperator = true)
    (hrun : (before indentation n memory).run Policy.all rule s = (s', e))
    (hreport : s'.violations = s.violations ++ [v]) :
    v.corrected = true ∧
      (persists s.tree n = false → ∀ policy rule' (memory' : σ),
        (before indentation n memory').run policy rule' s' =
          (s', .finished memory')) ∧
      (persists s.tree n = true → ∀ rule' (memory' : σ), ∃ s'' v',
        (before indentation n memory').run Policy.all rule' s' =
          (s'', .finished memory') ∧
          s''.violations = s'.violations ++ [v'] ∧ v'.message = v.message ∧
            v'.corrected = true) := by
  have htidy : s.tree.Tidy isOperator := ⟨ht.consistent, hfile, ha⟩
  have hdoc := htidy.sound.mem_document_iff.mpr hn
  rcases opensLine_or_closesLine hk with hopens | hcloses
  · have hagain := silent_after_openLine htidy hdoc hrun hreport hopens
    refine ⟨(hagain memory).1, fun _ policy rule' memory' =>
      (hagain memory').2.run rfl, fun hstill => ?_⟩
    rw [persists_of_opensLine hopens] at hstill
    cases hstill
  · have hagain := call_after_closeLine htidy hdoc hrun hreport hcloses
    refine ⟨(hagain memory).1, fun hgone policy rule' memory' => ?_,
      fun hstill rule' memory' => ?_⟩
    · exact ((hagain memory').2.1 hgone).run rfl
    · exact (hagain memory').2.2 hstill rule'

/-- In the expression `a⏎+ b`, whose operator has a node of its own. -/
theorem operator_correction_effective_binary :
    let t := Tree.build .file
      [.start .binaryExpr, .token .identifier "a", .space "\n",
        .start .operationReference, .token .plus "+", .finish,
        .space " ", .token .identifier "b"]
    ∃ s' e v, (before {} 5 ()).run Policy.all info.id { tree := t } = (s', e) ∧
      s'.violations = [v] ∧
      s'.tree.toText = "a +\nb" ∧ v.corrected = true ∧
      ∀ policy rule, (before {} 5 ()).run policy rule s' =
          (s', .finished ()) := by
  intro t
  obtain ⟨s', e, hrun⟩ : ∃ s' e, (before {} 5 ()).run Policy.all info.id
      { tree := t } = (s', e) :=
    ⟨_, _, Prod.mk.eta.symm⟩
  have hone : ((before {} 5 ()).run Policy.all info.id
      { tree := t }).1.violations.length = 1 := by decide +kernel
  have htext : ((before {} 5 ()).run Policy.all info.id
      { tree := t }).1.tree.toText = "a +\nb" := by decide +kernel
  rw [hrun] at hone htext
  obtain ⟨v, hv⟩ := List.length_eq_one_iff.mp hone
  have hreach : t.Reachable := ⟨_, _, [], rfl⟩
  have hpersists : persists t 5 = false := by decide +kernel
  obtain ⟨hcorrected, hgone, -⟩ :=
    operator_correction_effective {} info.id () hreach (by decide +kernel)
    (by decide +kernel) (by decide +kernel) (by decide +kernel) hrun hv
  exact ⟨s', e, v, hrun, hv, htext, hcorrected, fun policy rule =>
    hgone hpersists policy rule ()⟩

/-- In the same expression with the line break inside the node of the
operator. It is moved along. -/
theorem break_moved_along :
    let t := Tree.build .file
      [.token .identifier "a", .start .operationReference, .space "\n",
        .token .plus "+", .finish,
        .token .identifier "b"]
    let once := ((before {} 4 ()).run Policy.all info.id { tree := t }).1
    let twice := ((before {} 4 ()).run Policy.all info.id once).1
    t.hasKind Tree.root .file = true ∧
      (t.document.Atomic fun k => k.isTrivia || isOperator k) ∧
      t.isAttached 4 = true ∧ t.kindIs 4 isOperator = true ∧
      once.violations.map (fun v => (v.message, v.corrected)) =
        [("Line must not begin with \"+\"", true)] ∧
      twice.violations.map (fun v => (v.message, v.corrected)) =
        [("Line must not begin with \"+\"", true),
          ("Line must not begin with \"+\"", true)] ∧
      ((Session.standard t).format 20 Policy.all {}).map
        (fun p => (p.1.tree.toText, p.2.toOption.map Formatted.passes)) =
            some ("a \n+ b", some 3) := by
  decide +kernel

end TreeLint
