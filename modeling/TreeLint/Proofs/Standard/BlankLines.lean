import TreeLint.Proofs.Lint.Alone
import TreeLint.Proofs.Standard.Stable
import TreeLint.Proofs.Tree.Indentation
import TreeLint.Proofs.Tree.Neighbours

/-!
# Blank lines before declarations come to rest

White space put before a declaration that lacks its blank line gives it one,
and takes none away from the others: which declarations are exempt does not
depend on white space (`isExempt_of_respaced`), and the new white space is a
blank line for whatever it stands before (`lacksBlankLine_of_spacedBefore`).
So one visit of a file leaves no declaration without its blank line. New
white space always stands before the declaration that the walk has come to,
so that the walk does not come across it (`Underway`).

`blank_lines_settle` puts this together for formatting with this rule on its
own.

Specification, §13.
-/

namespace TreeLint.Standard.BlankLine

open TreeLint.Tree (Respaced SpacedBefore)

variable {σ : Type} {t u : Tree} {m n z : NodeId} {x : String}

/-! ## Exemptions do not depend on white space

A declaration is exempt because of the code around it (specification, §13).
Each exemption asks about kinds, parents and neighbouring code, so white
space that comes, goes or changes leaves the answer as it was: one lemma for
each exemption, and `isExempt_of_respaced` for all of them. -/

theorem parentIs_of_respaced (h : Respaced z x t u) (ht : t.Sound)
    (hm : m ∈ t.document.ids) (hm' : m ∈ u.document.ids) (k : Kind) :
    parentIs u m k = parentIs t m k := by
  unfold parentIs
  rw [h.parent?_eq ht hm hm']
  refine any_congr fun p hp => ?_
  have hp' : u.parent? m = some p := (h.parent?_eq ht hm hm').trans hp
  exact h.hasKind_eq ht (ht.parent_mem_document hm hp)
    (h.sound.parent_mem_document hm' hp') k

section Exemptions

variable (h : Respaced z x t u) (ht : t.Sound) (hm : m ∈ t.document.ids)
  (hne : m ≠ z)

include h ht hm hne

theorem isFirstAfterBrace_of_respaced :
    isFirstAfterBrace u m = isFirstAfterBrace t m := by
  have hm' : m ∈ u.document.ids := (h.mem_iff hne).mpr hm
  have hparent := h.parent?_eq ht hm hm'
  unfold isFirstAfterBrace
  rw [hparent]
  cases hp : t.parent? m with
  | none => rfl
  | some p =>
    have hpt : p ∈ t.document.ids := ht.parent_mem_document hm hp
    have hpu : p ∈ u.document.ids :=
      h.sound.parent_mem_document hm' (hparent.trans hp)
    have hbrace : (t.childOfKind? p .leftBrace).bind u.nextCodeSibling? =
        (t.childOfKind? p .leftBrace).bind t.nextCodeSibling? := by
      refine Option.bind_congr fun brace hbrace => ?_
      have hmem : brace ∈ t.document.ids :=
        ht.childOfKind_mem_document hpt hbrace
      have hkind : t.hasKind brace .leftBrace = true :=
        List.find?_some (p := fun c => t.hasKind c .leftBrace) hbrace
      refine h.nextCodeSibling?_eq ht hmem fun hz => ?_
      subst hz
      simp [Tree.hasKind, (h.old hmem).1] at hkind
    simp only [h.kindIs_eq ht hpt hpu,
      h.childOfKind?_eq ht hpt hpu (k := .leftBrace) (by decide), hbrace]

theorem isFirstInLambda_of_respaced :
    isFirstInLambda u m = isFirstInLambda t m := by
  have hm' : m ∈ u.document.ids := (h.mem_iff hne).mpr hm
  have hparent := h.parent?_eq ht hm hm'
  unfold isFirstInLambda
  rw [hparent]
  cases hp : t.parent? m with
  | none => rfl
  | some p =>
    have hpt : p ∈ t.document.ids := ht.parent_mem_document hm hp
    have hpu : p ∈ u.document.ids :=
      h.sound.parent_mem_document hm' (hparent.trans hp)
    have hlambda : parentIs u p .functionLiteral =
        parentIs t p .functionLiteral :=
      parentIs_of_respaced h ht hpt hpu .functionLiteral
    unfold parentIs at hlambda
    simp only [h.hasKind_eq ht hpt hpu, h.firstCodeChild_eq ht hpt hpu, hlambda]

/-- A question about the code before a declaration, which may be about its
kind and that of its parent. -/
theorem prevCode_of_respaced {test test' : NodeId → Bool}
    (htest : ∀ prev, prev ∈ t.document.ids → prev ∈ u.document.ids →
      test' prev = test prev) :
    (u.prevCodeSibling? m).any test' = (t.prevCodeSibling? m).any test := by
  have hm' : m ∈ u.document.ids := (h.mem_iff hne).mpr hm
  have hprev := h.prevCodeSibling?_eq ht hm hne
  rw [hprev]
  refine any_congr fun prev hsome => ?_
  exact htest prev (ht.prevCodeSibling_mem_document hm hsome)
    (h.sound.prevCodeSibling_mem_document hm' (hprev.trans hsome))

theorem followsProperty_of_respaced :
    followsProperty u m = followsProperty t m := by
  have hm' : m ∈ u.document.ids := (h.mem_iff hne).mpr hm
  unfold followsProperty
  rw [h.kindIs_eq ht hm hm']
  congr 1
  refine prevCode_of_respaced h ht hm hne fun prev hprev hprev' => ?_
  rw [h.kindIs_eq ht hprev hprev', h.parent?_eq ht hprev hprev']
  congr 1
  refine any_congr fun p hp => ?_
  have hp' : u.parent? prev = some p := (h.parent?_eq ht hprev hprev').trans hp
  exact h.kindIs_eq ht (ht.parent_mem_document hprev hp)
    (h.sound.parent_mem_document hprev' hp') _

theorem isFunctionValue_of_respaced :
    isFunctionValue u m = isFunctionValue t m := by
  have hm' : m ∈ u.document.ids := (h.mem_iff hne).mpr hm
  unfold isFunctionValue
  rw [h.hasKind_eq ht hm hm', parentIs_of_respaced h ht hm hm',
    prevCode_of_respaced h ht hm hne fun prev hprev hprev' =>
      h.kindIs_eq ht hprev hprev' _]

theorem isExempt_of_respaced : isExempt u m = isExempt t m := by
  have hm' : m ∈ u.document.ids := (h.mem_iff hne).mpr hm
  simp only [isExempt, isFirstAfterBrace_of_respaced h ht hm hne,
    isFirstInLambda_of_respaced h ht hm hne,
    followsProperty_of_respaced h ht hm hne,
      isFunctionValue_of_respaced h ht hm hne, parentIs_of_respaced h ht hm hm',
    h.kindIs_eq ht hm hm', h.hasKind_eq ht hm hm']

end Exemptions

/-! ## One declaration after the other -/

/-- Whether there is a blank line is a question about the nearest token. -/
theorem isSeparated_eq_all (ht : t.Sound) (hm : m ∈ t.document.ids) :
    isSeparated t m = (t.tokensBefore m).head?.all fun tok =>
      tok.text.toList.take 2 == ['\n', '\n'] := by
  unfold isSeparated Tree.prevLeaf?
  cases hhead : (t.tokensBefore m).head? with
  | none => rfl
  | some tok =>
    have htok : tok ∈ t.document.tokens :=
      ht.mem_tokens_of_beside hm (Or.inl (List.mem_of_head? hhead))
    simp [(ht.of_mem_tokens htok).2.2]

/-- White space is no declaration, so it lacks nothing. -/
theorem lacksBlankLine_of_whitespace (hk : t.kind? m = some .whitespace) :
    lacksBlankLine t m = false := by
  simp [lacksBlankLine, Tree.kindIs, hk, Kind.isDeclaration]

section Correction

variable (h : SpacedBefore n z x t u) (ht : t.Sound)
  (hx : x.toList.take 2 = ['\n', '\n'])

include h hx

/-- The declaration that the white space was put before has its blank line. -/
theorem lacksBlankLine_self (hn : n ∈ t.document.ids) :
    lacksBlankLine u n = false := by
  have hseparated : isSeparated u n = true := by
    rw [isSeparated_eq_all h.sound (h.kept hn), h.nearest]
    simp [hx]
  simp [lacksBlankLine, hseparated]

include ht

/-- A declaration that had its blank line still has it. -/
theorem lacksBlankLine_of_spacedBefore (hm : m ∈ t.document.ids)
    (hlacks : lacksBlankLine t m = false) :
    lacksBlankLine u m = false := by
  have hm' : m ∈ u.document.ids := h.kept hm
  by_cases hne : m = z
  · exact lacksBlankLine_of_whitespace (hne ▸ (h.new (hne ▸ hm')).1)
  · have hseparated : isSeparated t m = true → isSeparated u m = true := by
      intro hsep
      rw [isSeparated_eq_all ht hm] at hsep
      rw [isSeparated_eq_all h.sound hm']
      rcases h.nearest_or_same ht hm hne with hnew | hsame
      · rw [hnew]
        simp [hx]
      · rw [hsame, hsep]
    have hkind := h.kindIs_eq ht hm hm' Kind.isDeclaration
    have hexempt := isExempt_of_respaced h.toRespaced ht hm hne
    unfold lacksBlankLine at hlacks ⊢
    rw [hkind, hexempt]
    cases hsep : isSeparated t m with
    | true => simp [hseparated hsep]
    | false =>
      rw [hsep] at hlacks
      simp only [Bool.not_false, Bool.and_true] at hlacks
      simp [hlacks]

end Correction

/-! ## Indentation

The white space that is put in is a line break and the indentation of the
line, which itself begins with a line break. -/

/-- A blank line keeps the indentation of the declaration behind it. -/
theorem indent_of_spacedBefore (h : SpacedBefore n z ("\n" ++ t.indent n) t u) :
    u.indent n = t.indent n := by
  have hchars : ("\n" ++ t.indent n).toList = ['\n'] ++ '\n' :: Tree.lineIndent
      (t.tokensBefore n) := by
    simp [Tree.indent]
  obtain ⟨before, hbefore⟩ := List.head?_eq_some_iff.mp h.nearest
  have hlast : Tree.lineIndent (u.tokensBefore n) =
      Tree.lineIndent (t.tokensBefore n) := by
    rw [hbefore, Tree.lineIndent, hchars,
      Tree.afterLastBreak?_append (Tree.not_mem_lineIndent _)]
    rfl
  rw [Tree.indent, hlast, Tree.indent]

theorem take_two_indent (t : Tree) (n : NodeId) :
    ("\n" ++ t.indent n).toList.take 2 = ['\n', '\n'] := by
  simp [Tree.indent]

/-! ## The program -/

/-- A declaration that lacks its blank line is not the root: there is text
before it. -/
theorem ne_root_of_lacksBlankLine (ht : t.Sound) (hn : n ∈ t.document.ids)
    (hlacks : lacksBlankLine t n = true) : n ≠ Tree.root := by
  have hseparated : isSeparated t n = false := by
    simp only [lacksBlankLine, Bool.and_eq_true, Bool.not_eq_true'] at hlacks
    exact hlacks.2
  rw [isSeparated_eq_all ht hn] at hseparated
  cases hhead : (t.tokensBefore n).head? with
  | none => simp [hhead] at hseparated
  | some tok =>
    exact (Tree.beside_leaf ht hn (Or.inl (List.mem_of_head? hhead))).2

/-- Where a blank line is missing, it is put in. -/
theorem achieves_before (ht : t.Consistent) (hn : n ∈ t.document.ids)
    (hlacks : lacksBlankLine t n = true) (memory : σ) :
    (before n memory).Achieves memory
      (fun _ u => u.Consistent ∧
        ∃ z, SpacedBefore n z ("\n" ++ t.indent n) t u) 0 t := by
  have hx : ("\n" ++ t.indent n).isEmpty = false := by
    simp [String.isEmpty_eq_false_iff]
  have hok : (t.begin.spaceBefore n ("\n" ++ t.indent n)).failure = none :=
    (Tree.spaceBefore_succeeds_iff ht.begin.sound hn hx).mpr
      (ne_root_of_lacksBlankLine ht.sound hn hlacks)
  obtain ⟨z, hz⟩ := Tree.spacedBefore_spaceBefore ht.begin.sound hn hx hok
  simp only [before, Hook.Achieves, hlacks, if_true]
  exact Hook.achieves_correct _ _ rfl hok
    ⟨(ht.begin.apply (.spaceBefore n _)).close _, z, hz.closed _⟩

/-- Where none is missing, nothing is done. -/
theorem silent_before (hlacks : lacksBlankLine t n = false) (memory : σ) :
    (before n memory).Silent memory t := by
  simp [before, Hook.Silent, hlacks]

/-! ## A visit -/

/-- How far a visit of the document `route` has got, when the nodes in
`seen` were begun. The nodes of the route are in place. All else is white
space, each before a sibling that was begun. No node that was begun lacks
its blank line. -/
structure Underway (route : Forest) (seen : List NodeId) (t : Tree) : Prop where
  consistent : t.Consistent
  seen_subset : seen ⊆ route.ids
  kept : route.ids ⊆ t.document.ids
  listed : ∀ n ∈ route.ids, (t.children n).filter (· ∈ route.ids) =
    (route.offspring n).roots
  strays : ∀ c ∈ t.document.ids, c ∉ route.ids →
    t.kind? c = some .whitespace ∧ ∃ d ∈ seen, t.parent? d = t.parent? c ∧
      t.document.Precedes c d
  done : ∀ m ∈ seen, lacksBlankLine t m = false
  code : t.document.tokens.filter (·.kind != .whitespace) =
    route.tokens.filter (·.kind != .whitespace)

namespace Underway

variable {route : Forest} {seen : List NodeId}

/-- Before the first node is begun nothing stands in the way. -/
theorem start (ht : t.Consistent) : Underway t.document [] t where
  consistent := ht
  seen_subset := List.nil_subset _
  kept := List.Subset.refl _
  listed n hn := by
    rw [ht.sound.offspring_document hn, List.filter_eq_self]
    intro c hc
    simpa using ht.sound.child_mem_document hn hc
  strays _ hc hnot := absurd hc hnot
  done _ hm := by cases hm
  code := rfl

/-- A visit under way keeps to its route. -/
theorem onRoute (h : Underway route seen t) : OnRoute route seen t where
  sound := h.consistent.sound
  attached _ hn := h.kept (h.seen_subset hn)
  listed n hn := h.listed n (h.seen_subset hn)
  strays n hn c hc hnot := by
    have ht := h.consistent.sound
    have hattached : n ∈ t.document.ids := h.kept (h.seen_subset hn)
    obtain ⟨-, d, hd, hparent, hbefore⟩ :=
      h.strays c (ht.child_mem_document hattached hc) hnot
    have hdn : d ∈ t.children n := by
      rw [← ht.parent?_eq_some_iff, hparent, ht.parent?_eq_some_iff]
      exact hc
    refine ⟨d, hd, hdn, ((pair_sublist_iff (ht.nodup_children n)).mp ?_).2⟩
    rw [← ht.offspring_document hattached] at hc hdn ⊢
    exact (Forest.precedes_iff_roots ht.nodup_document hc hdn).mp hbefore

/-- A node is begun that does not lack its blank line. -/
theorem begin (h : Underway route seen t) (hn : n ∈ route.ids)
    (hlacks : lacksBlankLine t n = false) :
    Underway route (seen ++ [n]) t where
  consistent := h.consistent
  seen_subset := List.append_subset.mpr ⟨h.seen_subset, by simpa using hn⟩
  kept := h.kept
  listed := h.listed
  strays c hc hnot := by
    obtain ⟨hk, d, hd, hbefore⟩ := h.strays c hc hnot
    exact ⟨hk, d, List.mem_append_left _ hd, hbefore⟩
  done m hm := by
    rcases List.mem_append.mp hm with hm | hm
    · exact h.done m hm
    · exact List.mem_singleton.mp hm ▸ hlacks
  code := h.code

/-- White space before a node that is about to be begun. -/
theorem spaced (h : Underway route seen t) (hn : n ∈ route.ids)
    (hs : SpacedBefore n z x t u) (hu : u.Consistent)
    (hx : x.toList.take 2 = ['\n', '\n']) : Underway route (seen ++ [n]) u := by
  have ht := h.consistent.sound
  refine ⟨hu, List.append_subset.mpr ⟨h.seen_subset, by simpa using hn⟩,
    List.Subset.trans h.kept hs.kept,
    fun q hq => ?_, fun c hc hnot => ?_, fun m hm => ?_,
      (hs.tokens_filter_kind ht).trans h.code⟩
  · rw [← h.listed q hq]
    by_cases hz : z ∈ route.ids
    · rw [hs.children_eq ht (h.kept hz) (h.kept hq)]
    · have hskip : ∀ l : List NodeId, l.filter (· ∈ route.ids) =
          (l.filter (· != z)).filter (· ∈ route.ids) := by
        intro l
        rw [List.filter_filter]
        refine List.filter_congr fun m _ => ?_
        by_cases hm : m = z
        · simp [hm, hz]
        · simp [hm]
      rw [hskip, hs.children_filter ht (h.kept hq) (hs.kept (h.kept hq)),
        ← hskip]
  · by_cases hct : c ∈ t.document.ids
    · obtain ⟨hk, d, hd, hparent, hbefore⟩ := h.strays c hct hnot
      have hdt : d ∈ t.document.ids := h.kept (h.seen_subset hd)
      refine ⟨(hs.kind?_eq ht hct hc).trans hk, d, List.mem_append_left _ hd,
        ?_, hs.precedes_of_precedes hbefore⟩
      rw [hs.parent?_eq ht hdt (hs.kept hdt), hs.parent?_eq ht hct hc, hparent]
    · -- only the white space itself is new
      obtain rfl : c = z := by
        by_contra hne
        exact hct ((hs.mem_iff hne).mp hc)
      exact ⟨(hs.new hc).1, n, by simp, (hs.sibling hct).symm, hs.precedes⟩
  · rcases List.mem_append.mp hm with hm | hm
    · exact lacksBlankLine_of_spacedBefore hs ht hx (h.kept (h.seen_subset hm))
        (h.done m hm)
    · exact List.mem_singleton.mp hm ▸ lacksBlankLine_self hs hx (h.kept hn)

/-- When all nodes were begun, the document needs nothing any more. -/
theorem rested (h : Underway route route.ids t) {v : Tree} (hv : v.Sound)
    (hdoc : v.document = t.document) (hm : m ∈ t.document.ids) :
    lacksBlankLine v m = false := by
  have hsame : t.SameFile v := ⟨h.consistent.sound, hv, hdoc⟩
  rw [lacksBlankLine_eq hsame hm]
  by_cases hroute : m ∈ route.ids
  · exact h.done m hroute
  · exact lacksBlankLine_of_whitespace (h.strays m hm hroute).1

end Underway

section Visit

variable [Inhabited σ]

/-- The rule acts before the children of a node, whatever the settings. -/
def nodeRule : NodeRule σ :=
  { info, memory := default, before := fun _ => before }

/-- A visit with the rule on its own: it is under way, and nothing has
failed. -/
structure Visiting (s : Settings) (route : Forest) (seen : List NodeId)
    (w : Walk σ) : Prop where
  rules : w.rules = [nodeRule.active s]
  failures : w.scene.failures = []
  underway : Underway route seen w.tree

variable {s : Settings} {route : Forest}

/-- **Step.** The invariant carries the walk along the route: a node that is
begun gets its blank line, and the rule has nothing to do on the way back.
-/
theorem guide_visiting :
    Guide Policy.all route (Visiting s route : List NodeId →
      Walk σ → Prop) where
  onRoute h := h.underway.onRoute
  before {seen n w} h hnext := by
    have hn : n ∈ route.ids := hnext.subset (by simp)
    have ht := h.underway.consistent
    have hattached : w.tree.isAttached n = true :=
      ht.sound.mem_document_iff.mp (h.underway.kept hn)
    cases hlacks : lacksBlankLine w.tree n with
    | false =>
      have hunmoved : Walk.Unmoved w
          (w.dispatch Policy.all .beforeChildren n) :=
        Walk.unmoved_dispatch h.rules hattached ht
          (silent_before (t := w.tree.begin) hlacks _)
      refine ⟨hunmoved.rules.trans h.rules, ?_, ?_⟩
      · rw [hunmoved.scene]
        exact h.failures
      · rw [hunmoved.tree]
        exact h.underway.begin hn hlacks
    | true =>
      obtain ⟨-, u, ⟨hu, z, hz⟩, hrules, htree, hfailures⟩ :=
        Walk.dispatch_of_achieves h.rules hattached
        (achieves_before (t := w.tree.begin) ht.begin (h.underway.kept hn)
          hlacks default)
      refine ⟨hrules, hfailures.trans h.failures, ?_⟩
      rw [htree]
      exact h.underway.spaced hn (hz.closed _) (hu.close _)
        (take_two_indent w.tree n)
  after {seen n w} h hn := by
    have hattached : w.tree.isAttached n = true :=
      h.underway.consistent.sound.mem_document_iff.mp
        (h.underway.kept (h.underway.seen_subset hn))
    have hunmoved := Walk.unmoved_dispatch_after Policy.all h.rules hattached
      h.underway.consistent
    refine ⟨hunmoved.rules.trans h.rules, ?_, ?_⟩
    · rw [hunmoved.scene]
      exact h.failures
    · rw [hunmoved.tree]
      exact h.underway

end Visit

end TreeLint.Standard.BlankLine

namespace TreeLint

open Standard.BlankLine (before info lacksBlankLine provider nodeRule Visiting)

/-- **Blank lines come to rest in one visit.** Format any file with this
rule on its own, if it is active, and allow all corrections. Formatting is
over after two visits at most, nothing fails, and the tokens other than
white space are what they were. No declaration of the file lacks its blank
line any more, and a lint that follows has nothing to report.

And wherever the rule corrects a declaration, the declaration keeps its
indentation, and the token right before it is white space that begins with
two line breaks. Specification, §13. -/
theorem blank_lines_settle {σ : Type} [Inhabited σ] (w : Session σ)
    (s : Settings)
    (hreg : Registry.ofProviders w.engine.registry.id [provider] =
      .ok w.engine.registry)
    (hcache : w.engine.cache.Faithful w.engine.registry)
    (hactive : info.isActive s = true) (ht : w.tree.Reachable) :
    (∃ w' f enough, (∀ fuel, enough ≤ fuel → w.format fuel Policy.all s =
      some (w', .ok f)) ∧
      f.passes ≤ 2 ∧ f.failures = [] ∧
      w'.tree.document.tokens.filter (·.kind != .whitespace) =
        w.tree.document.tokens.filter (·.kind != .whitespace) ∧
      (∀ n ∈ w'.tree.document.ids, lacksBlankLine w'.tree n = false) ∧
      ∃ w'' o enough', (∀ fuel, enough' ≤ fuel →
        w'.lint fuel s = some (w'', .ok o)) ∧ o.violations = []) ∧
    ∀ (scene : Scene) (n : NodeId) (rule : RuleId) (memory : σ),
      scene.tree.Reachable →
      scene.tree.isAttached n = true → lacksBlankLine scene.tree n = true →
      ∃ scene' z y, (before n memory).run Policy.all rule scene =
        (scene', .finished memory) ∧
        scene'.failures = scene.failures ∧
          scene'.tree.indent n = scene.tree.indent n ∧
        scene'.tree.prevLeaf? n = some z ∧
          scene'.tree.kind? z = some .whitespace ∧
        scene'.tree.tokenText? z = some ("\n\n" ++ y) := by
  constructor
  · obtain ⟨start, horder, hstart⟩ :=
      Session.order_alone hreg hcache rfl hactive
    have hconsistent : start.tree.Consistent := hstart ▸ ht.consistent
    have hbegin : Visiting s start.tree.document []
        (start.walkWith nodeRule s) := ⟨rfl, rfl, .start hconsistent⟩
    obtain ⟨w₁, hends, hw₁⟩ :=
      Standard.BlankLine.guide_visiting.ends hconsistent.sound.nodup_document
      hconsistent.sound.roots_document hbegin
    have hrest : (nodeRule : NodeRule σ).Rested s w₁.tree.document :=
        fun v hv hdoc n hn =>
      Standard.BlankLine.silent_before (hw₁.underway.rested hv.sound hdoc hn) _
    obtain ⟨w', f, enough, hformat, hpasses, hfailures, htree, w'',
        enough', hlint⟩ :=
      Session.format_settles horder hends hw₁.rules hw₁.underway.consistent
        hw₁.failures hrest
    refine ⟨w', f, enough, hformat, hpasses, hfailures, ?_, ?_, w'', {},
      enough', hlint, rfl⟩
    · rw [htree, hw₁.underway.code, hstart]
    · rw [htree]
      exact fun n hn => hw₁.underway.rested hw₁.underway.consistent.sound rfl hn
  · intro scene n rule memory hreach hattached hlacks
    have hconsistent := hreach.consistent
    obtain ⟨scene', -, hrun, ⟨-, z, hz⟩, hfailures⟩ :=
      (Standard.BlankLine.achieves_before hconsistent
      (hconsistent.sound.mem_document_iff.mpr hattached) hlacks memory).run rule
        rfl
    refine ⟨scene', z, String.ofList
      (Tree.lineIndent (scene.tree.tokensBefore n)), hrun, hfailures,
      Standard.BlankLine.indent_of_spacedBefore hz, ?_, ?_⟩
    · rw [Tree.prevLeaf?, hz.nearest]
      rfl
    · obtain ⟨hkind, htext⟩ := hz.new hz.precedes.mem_left
      refine ⟨hkind, htext.trans (congrArg some ?_)⟩
      rw [← String.toList_inj]
      simp [Tree.indent]

/-- Two functions on one line: the second one lacks its blank line, and
formatting puts it in. -/
theorem blank_lines_settle_two_functions :
    let t := Tree.build .file
      [.start .function, .token .identifier "a", .finish,
        .start .function, .token .identifier "b", .finish]
    let s : Settings := { codeStyle := .ktlintOfficial }
    let w : Session Unit :=
      { engine := { registry := ⟨0, [(info.id, provider)]⟩ }, tree := t }
    lacksBlankLine t 3 = true ∧
    (∃ w' f enough, (∀ fuel, enough ≤ fuel →
        w.format fuel Policy.all s = some (w', .ok f)) ∧
      w'.tree.toText = "a\n\nb" ∧
      f.violations.map (fun v => (v.offset, v.rule, v.corrected)) =
        [(1, info.id, true)] ∧
      f.passes ≤ 2 ∧ f.failures = [] ∧
      lacksBlankLine w'.tree 3 = false ∧
      ∃ w'' o enough', (∀ fuel, enough' ≤ fuel →
        w'.lint fuel s = some (w'', .ok o)) ∧ o.violations = []) ∧
    ∃ (scene' : Scene) (z : NodeId) (y : String),
      (before 3 ()).run Policy.all info.id { tree := t } =
          (scene', .finished ()) ∧
        scene'.tree.prevLeaf? 3 = some z ∧
        scene'.tree.tokenText? z = some ("\n\n" ++ y) := by
  intro t s w
  have hreach : t.Reachable := ⟨_, _, [], rfl⟩
  have hlacks : lacksBlankLine t 3 = true := by decide +kernel
  have hrun : (w.format 20 Policy.all s).map (fun p =>
      ((p.1.tree.toText, decide (3 ∈ p.1.tree.document.ids)),
        p.2.toOption.map fun f =>
          f.violations.map fun v => (v.offset, v.rule, v.corrected))) =
      some (("a\n\nb", true), some [(1, info.id, true)]) := by
    decide +kernel
  obtain ⟨⟨w', f, enough, hformat, hpasses, hfailures, -, hrested, hlint⟩,
    hfix⟩ := blank_lines_settle w s rfl (OrderCache.faithful_empty _)
      (by decide +kernel) hreach
  -- the run with this much fuel is the one that the theorem speaks of
  obtain ⟨x, hx, hseen⟩ := Option.map_eq_some_iff.mp hrun
  have hsame : x = (w', .ok f) := by
    have hmore := Session.format_mono hx (Nat.le_max_left 20 enough)
    exact Option.some.inj (hmore.symm.trans
      (hformat _ (Nat.le_max_right 20 enough)))
  subst hsame
  obtain ⟨hfile, hviolations⟩ := Prod.mk.inj hseen
  obtain ⟨htext, hmem⟩ := Prod.mk.inj hfile
  obtain ⟨scene', z, y, hfixed, -, -, hprev, -, hspace⟩ :=
    hfix { tree := t } 3 info.id () hreach (by decide +kernel) hlacks
  exact ⟨hlacks, ⟨w', f, enough, hformat, htext, Option.some.inj hviolations,
    hpasses, hfailures, hrested 3 (of_decide_eq_true hmem), hlint⟩,
    scene', z, y, hfixed, hprev, hspace⟩

end TreeLint
