import TreeLint.Proofs.Standard.Tidying
import TreeLint.Proofs.Tree.Splice

/-!
# Parameter lists come to canonical form

A file with one parameter list is visited by the rule on its own. The walk
goes along the document as it will be when it is over: before the list is
begun nothing has changed, and what stands around the list has the same
children before and after (`guide_visiting`). From then on the rule has
nothing to say (`rested`), so formatting is over after the second visit
(`parameter_lists_settle`).

The rule does not remove white space next to the parentheses of a list
inside a comment (`commented_list_stays`).

Specification, §13.
-/

namespace TreeLint.Standard.ParameterSpacing

open Forest (Context Layer)
open Forest.Context

variable {σ : Type} {memory : σ} {limit : Option Nat} {t u : Tree} {C : Context}
  {list m n : NodeId} {l l' : Listing}

/-! ## The text of a list -/

theorem text_of_shows (h : t.Shows (placed C list l)) :
    t.text list = l.trees.text := by
  rw [Tree.text, h.subtree_eq (Forest.subtree?_of_roots_eq rfl)]
  exact String.append_empty

/-- One list in the place of another changes the text there and nowhere else. -/
theorem spliced_of_shows (ht : t.Shows (placed C list l))
    (hu : u.Shows (placed C list l')) :
    Text.Spliced (t.startOffset list) (t.textLength list) l'.trees.text t.toText
      u.toText := by
  have haround : Forest.Around list t.document C.leftTokens (t.subtree list)
      C.rightTokens := by
    rw [ht.subtree_eq (Forest.subtree?_of_roots_eq rfl)]
    exact ht.around rfl
  rw [Forest.text_eq]
  refine Tree.spliced_at ht.sound l'.trees.tokens haround ?_
  rw [(hu.around rfl).tokens_eq]
  simp [Forest.tokens]

/-! ## A visit -/

/-- Around a parameter list there is no other one, and no comment has it
inside. -/
structure Lone (C : Context) : Prop where
  comments : ∀ layer ∈ C, layer.kind.isComment = false
  others : ∀ e ∈ C.left ++ C.right, e.2.1 ≠ .parameterList

/-- If there is one parameter list in a file, there is none around it. -/
theorem lone_of_only (h : t.Shows (placed C list l))
    (hcomment : t.inComment list = false)
    (honly : ∀ m, t.isAttached m = true → t.hasKind m .parameterList =
      true → m = list) : Lone C := by
  constructor
  · rw [h.inComment_eq (n := list) List.mem_cons_self, Bool.or_eq_false_iff,
      List.any_eq_false] at hcomment
    intro layer hlayer
    simpa using hcomment.2 layer hlayer
  · rintro ⟨m, k, y⟩ hm rfl
    have hlabel : (m, .parameterList, y) ∈ t.document.labels := by
      rw [h.document, Forest.labels_fill]
      simp only [List.mem_append] at hm ⊢
      tauto
    obtain ⟨hdoc, hkind, -⟩ := h.sound.mem_labels_document_iff.mp hlabel
    obtain rfl : m = list :=
      honly m (h.sound.mem_document_iff.mp hdoc) (by simp [Tree.hasKind, hkind])
    obtain ⟨hleft, hright⟩ :=
      Forest.not_mem_context h.nodup (m := m) List.mem_cons_self
    rcases List.mem_append.mp hm with hm | hm
    · exact hleft (List.mem_map.mpr ⟨_, hm, rfl⟩)
    · exact hright (List.mem_map.mpr ⟨_, hm, rfl⟩)

/-- The rule has nothing to say about other nodes. -/
theorem silent_of_ne (hC : Lone C) (h : t.Shows (placed C list l))
    (hm : m ∈ t.document.ids) (hne : m ≠ list) :
    (before limit m memory).Silent memory t := by
  obtain ⟨k, hk⟩ := h.sound.exists_kind hm
  have hlabel : (m, k, t.tokenText? m) ∈ t.document.labels :=
    h.sound.mem_labels_document_iff.mpr ⟨hm, hk, rfl⟩
  have hother : k ≠ .parameterList := by
    rw [h.document, Forest.labels_fill, List.mem_append, List.mem_append]
      at hlabel
    rcases hlabel with (hleft | hin) | hright
    · exact hC.others _ (List.mem_append_left _ hleft)
    · simp only [Forest.labels, List.append_nil, List.mem_cons] at hin
      rcases hin with heq | hin
      · exact absurd (congrArg Prod.fst heq) hne
      · have hkinds : k ∈ Listing.kinds := kinds_listing l _ hin
        rintro rfl
        simp [Listing.kinds] at hkinds
    · exact hC.others _ (List.mem_append_right _ hright)
  simp [before, Hook.Silent, Tree.hasKind, hk, hother]

section Visit

variable [Inhabited σ] {s : Settings}

/-- The rule acts before the children of a node, with the longest line the
settings allow. -/
def nodeRule : NodeRule σ :=
  { info, memory := default, before := fun view => before view.maxLineLength? }

/-- **A tidy list is left alone** (specification, §13). -/
theorem rested (hC : Lone C) (hl : l.IsTidy) :
    (nodeRule : NodeRule σ).Rested s (placed C list l) := by
  intro t ht hdoc n hn
  have h : t.Shows (placed C list l) := ⟨ht, hdoc⟩
  by_cases hne : n = list
  · subst hne
    have hcall : (nodeRule.program s n).Achieves (default : σ) (fun j _ =>
        j = 0) 0 t :=
      (achieves_before h hl.isInline hC.comments).mono fun j u hj => hj.1 hl
    exact hcall.silent
  · exact silent_of_ne hC h (hdoc ▸ hn) hne

/-- A call for a list that is written on one line. -/
theorem exists_tidied (σ : Type) [Inhabited σ] (s : Settings) (hC : Lone C)
    (ht : t.Shows (placed C list l)) (hinline : l.IsInline) :
    ∃ (u : Tree) (l' : Listing), l'.IsTidy ∧ l'.canonical = l.canonical ∧
      u.Shows (placed C list l') ∧
      (nodeRule.program s list).Achieves (default : σ) (fun _ v =>
        v.commit t.checkpoint = u) 0 t.begin := by
  obtain ⟨k, v, ⟨-, l', htidy, htext, hv⟩, hexact⟩ :=
    (achieves_before ht.begin hinline hC.comments).exact
  refine ⟨v.commit t.checkpoint, l', htidy, htext, hv.commit _, hexact.mono ?_⟩
  rintro _ _ ⟨-, rfl⟩
  rfl

/-- Until the list is begun, the walk sees the nodes before it. -/
theorem subset_leftIds {seen : List NodeId}
    (hseen : seen <+: (placed C list l).ids) (hlist : list ∉ seen) :
    seen ⊆ C.leftIds := by
  have hids : (placed C list l).ids =
      C.leftIds ++ list :: (l.trees.ids ++ C.rightIds) := by
    simp [Forest.ids_fill, Forest.ids]
  rw [hids] at hseen
  rcases Nat.lt_or_ge C.leftIds.length seen.length with hlong | hshort
  · have hpre : C.leftIds ++ [list] <+: C.leftIds ++ list ::
        (l.trees.ids ++ C.rightIds) := by simp
    have hmem :=
      (List.prefix_of_prefix_length_le hpre hseen (by simp; omega)).subset
    exact absurd (hmem (by simp)) hlist
  · exact (List.prefix_of_prefix_length_le hseen (List.prefix_append _ _)
      hshort).subset

/-- What stands before the list has the same children when the list has
changed. -/
theorem onRoute_before {seen : List NodeId} (ht : t.Shows (placed C list l))
    (hu : u.Shows (placed C list l')) (hseen : seen ⊆ C.leftIds) :
    OnRoute (placed C list l') seen t := by
  have hin : ∀ (f : Listing), ∀ n ∈ seen, n ∈ (placed C list f).ids := by
    intro f n hn
    rw [Forest.ids_fill]
    exact List.mem_append_left _ (List.mem_append_left _ (hseen hn))
  have hroots : ∀ n ∈ seen, t.children n =
      ((placed C list l').offspring n).roots := by
    intro n hn
    have hout : n ∉ (Forest.node list .parameterList l.trees .nil).ids :=
        fun hmem =>
      (Forest.not_mem_context ht.nodup hmem).1 (hseen hn)
    have hout' : n ∉ (Forest.node list .parameterList l'.trees .nil).ids :=
        fun hmem =>
      (Forest.not_mem_context hu.nodup hmem).1 (hseen hn)
    rw [← ht.sound.offspring_document (ht.document ▸ hin l n hn), ht.document]
    exact Forest.roots_offspring_fill rfl ht.nodup hout hout'
  have hmem : ∀ n ∈ seen, ∀ c ∈ t.children n, c ∈ (placed C list l').ids := by
    intro n hn c hc
    rw [hroots n hn] at hc
    exact Forest.ids_offspring_subset _ _ (Forest.mem_ids_of_mem_roots hc)
  refine ⟨ht.sound, fun n hn => ht.document ▸ hin l n hn, fun n hn => ?_,
    fun n hn c hc hnot => ?_⟩
  · rw [← hroots n hn, List.filter_eq_self]
    intro c hc
    simpa using hmem n hn c hc
  · exact absurd (hmem n hn c hc) hnot

/-- A visit with the rule on its own. The tree is `t` until the list is
begun, and `u` from then on. -/
structure Visiting (s : Settings) (list : NodeId) (route : Forest) (t u : Tree)
    (seen : List NodeId) (w : Walk σ) : Prop where
  rules : w.rules = [nodeRule.active s]
  failures : w.scene.failures = []
  begun : seen <+: route.ids
  tree : w.tree = if list ∈ seen then u else t

/-- A visit at which nothing happens goes on as it was. -/
theorem Visiting.unmoved {route : Forest} {seen seen' : List NodeId}
    {w w' : Walk σ} (h : Visiting s list route t u seen w)
    (hw : Walk.Unmoved w w') (hbegun : seen' <+: route.ids)
    (hlist : list ∈ seen' ↔ list ∈ seen) :
    Visiting s list route t u seen' w' where
  rules := hw.rules.trans h.rules
  failures := by
    rw [hw.scene]
    exact h.failures
  begun := hbegun
  tree := by
    rw [hw.tree, h.tree]
    simp only [hlist]

theorem Visiting.consistent {route : Forest} {seen : List NodeId} {w : Walk σ}
    (h : Visiting s list route t u seen w) (ht : t.Consistent)
    (hu : u.Consistent) : w.tree.Consistent := by
  rw [h.tree]
  split
  · exact hu
  · exact ht

/-- The walk goes along the document as it will be: around the list it is so
already. -/
theorem Visiting.onRoute {seen : List NodeId} {w : Walk σ}
    (h : Visiting s list (placed C list l') t u seen w)
    (ht : t.Shows (placed C list l)) (hu : u.Shows (placed C list l')) :
    OnRoute (placed C list l') seen w.tree := by
  rw [h.tree]
  split
  · rw [← hu.document]
    exact Walk.onRoute_document hu.sound (hu.document ▸ h.begun.subset)
  · next hlist => exact onRoute_before ht hu (subset_leftIds h.begun hlist)

/-- The walk goes along the document as it will be: the list is changed when
it is begun. -/
theorem guide_visiting (hC : Lone C) (ht : t.Shows (placed C list l))
    (hu : u.Shows (placed C list l')) (htidy : l'.IsTidy)
    (hcall : (nodeRule.program s list).Achieves (default : σ) (fun _ v =>
      v.commit t.checkpoint = u) 0 t.begin) :
    Guide Policy.all (placed C list l')
      (Visiting s list (placed C list l') t u : List NodeId →
        Walk σ → Prop) where
  onRoute h := h.onRoute ht hu
  before {seen n w} h hnext := by
    have hn : n ∈ (placed C list l').ids := hnext.subset (by simp)
    have htree := h.tree
    -- a call that reports nothing
    have hsilent : ∀ v : Tree, w.tree = v → v.Consistent → n ∈ v.document.ids →
        (list ∈ seen ++ [n] ↔ list ∈ seen) →
        (nodeRule.program s n).Silent (default : σ) v.begin →
        Visiting s list (placed C list l') t u (seen ++ [n])
            (w.dispatch Policy.all .beforeChildren n) := by
      rintro v rfl hv hdoc hlist hcall
      exact h.unmoved (Walk.unmoved_dispatch h.rules
        (hv.sound.mem_document_iff.mp hdoc) hv hcall) hnext hlist
    by_cases hlist : list ∈ seen
    · rw [if_pos hlist] at htree
      exact hsilent u htree hu.consistent (hu.document ▸ hn) (by simp [hlist])
        (rested hC htidy _ hu.begin.consistent hu.begin.document n hn)
    · rw [if_neg hlist] at htree
      by_cases hne : n = list
      · subst hne
        have hattached : w.tree.isAttached n = true := by
          rw [htree]
          exact ht.sound.mem_document_iff.mp (ht.label List.mem_cons_self).1
        rw [← htree] at hcall
        obtain ⟨-, v, hv, hrules, htree', hfailures⟩ :=
          Walk.dispatch_of_achieves h.rules hattached hcall
        refine ⟨hrules, hfailures.trans h.failures, hnext, ?_⟩
        rw [htree', hv, if_pos (by simp)]
      · have hbefore : seen ++ [n] ⊆ C.leftIds :=
          subset_leftIds hnext (by simp [hlist, Ne.symm hne])
        have hdoc : n ∈ t.document.ids :=
          (onRoute_before ht hu hbefore).attached n (by simp)
        exact hsilent t htree ht.consistent hdoc (by simp [Ne.symm hne])
          (silent_of_ne hC ht.begin hdoc hne)
  after {seen n w} h hn := by
    have hattached : w.tree.isAttached n = true :=
      (h.onRoute ht hu).isAttached hn
    have hconsistent := h.consistent ht.consistent hu.consistent
    exact h.unmoved (Walk.unmoved_dispatch_after Policy.all h.rules hattached
      hconsistent) h.begun Iff.rfl

end Visit

end TreeLint.Standard.ParameterSpacing

namespace TreeLint

open Standard.ParameterSpacing
  (Gap Parameter Entry Parameters Listing Lone placed info provider nodeRule
    lone_of_only
  exists_tidied guide_visiting rested text_of_shows spliced_of_shows)

/-- A parameter list inside a comment keeps the white space next to its
parentheses. -/
theorem commented_list_stays :
    let t := Tree.build .file
      [.start .docComment, .start .parameterList, .token .leftParen "(",
        .token .whitespace " ",
        .token .rightParen ")"]
    let l : Listing := ⟨3, some (4, " "), .none, none, 5⟩
    let w : Session Unit :=
      { engine := { registry := ⟨0, [(info.id, provider)]⟩ }, tree := t }
    t.subtree 2 = .node 2 .parameterList l.trees .nil ∧ l.canonical = "()" ∧
      (w.format 20 Policy.all {}).map
        (fun p => (p.1.tree.text 2, p.2.toOption.map Formatted.passes)) =
        some ("( )", some 1) := by
  decide +kernel

/-- **Parameter lists come to canonical form in one visit.** Take a file
with one parameter list, which is written on one line and not inside a
comment: any number of parameters with a name and a type, and white space or
none in each gap. Format the file with this rule on its own, if it is
active, and allow all corrections. In the place of the list the file then
has its canonical text, and all other text is what it was. Formatting is
over after two visits at most, and nothing fails. A lint that follows has
nothing to report. Specification, §13. -/
theorem parameter_lists_settle {σ : Type} [Inhabited σ] (w : Session σ)
    (s : Settings) (list : NodeId) (l : Listing)
    (hreg : Registry.ofProviders w.engine.registry.id [provider] =
      .ok w.engine.registry)
    (hcache : w.engine.cache.Faithful w.engine.registry)
    (hactive : info.isActive s = true) (ht : w.tree.Reachable)
    (hlist : w.tree.isAttached list = true)
    (htrees : w.tree.subtree list = .node list .parameterList l.trees .nil)
    (hinline : l.IsInline)
    (honly : ∀ m, w.tree.isAttached m = true → w.tree.hasKind m .parameterList =
      true → m = list)
    (hcomment : w.tree.inComment list = false) :
    ∃ w' f enough, (∀ fuel, enough ≤ fuel → w.format fuel Policy.all s =
      some (w', .ok f)) ∧
      w'.tree.text list = l.canonical ∧
      Text.Spliced (w.tree.startOffset list) (w.tree.textLength list)
        l.canonical w.tree.toText w'.tree.toText ∧
      f.passes ≤ 2 ∧ f.failures = [] ∧
      ∃ w'' o enough', (∀ fuel, enough' ≤ fuel →
        w'.lint fuel s = some (w'', .ok o)) ∧ o.violations = [] := by
  obtain ⟨start, horder, hstart⟩ := Session.order_alone hreg hcache rfl hactive
  rw [← hstart] at ht hlist htrees honly hcomment ⊢
  have hsound : start.tree.Sound := ht.consistent.sound
  obtain ⟨C, hdoc⟩ : ∃ C : Forest.Context, start.tree.document =
      C.fill (.node list .parameterList l.trees .nil) := by
    have hfound := hsound.subtree?_document (hsound.mem_document_iff.mpr hlist)
    rw [htrees] at hfound
    exact Forest.exists_fill hsound.roots_document hfound
  have hshows : start.tree.Shows (placed C list l) := ⟨ht.consistent, hdoc⟩
  -- From here on the document is a context around the one list.
  have hlone : Lone C := lone_of_only hshows hcomment honly
  obtain ⟨u, l', htidy, htext, hu, hcall⟩ :=
    exists_tidied σ s hlone hshows hinline
  have hroots : (placed C list l').roots = [Tree.root] :=
    hu.document ▸ hu.sound.roots_document
  obtain ⟨w₁, hends, hw₁⟩ :=
    (guide_visiting hlone hshows hu htidy hcall).ends hu.nodup hroots
    (w := start.walkWith nodeRule s) ⟨rfl, rfl, List.nil_prefix, rfl⟩
  have htree : w₁.tree = u := by
    rw [hw₁.tree, if_pos]
    rw [Forest.ids_fill]
    simp [Forest.ids]
  have hrest : (nodeRule : NodeRule σ).Rested s w₁.tree.document := by
    rw [htree, hu.document]
    exact rested hlone htidy
  obtain ⟨w', f, enough, hformat, hpasses, hfailures, htree', w'',
      enough', hlint⟩ :=
    Session.format_settles horder hends hw₁.rules (htree ▸ hu.consistent)
      hw₁.failures hrest
  rw [htree] at htree'
  refine ⟨w', f, enough, hformat, ?_, ?_, hpasses, hfailures, w'', {},
    enough', hlint, rfl⟩
  · rw [htree', text_of_shows hu, Listing.text_trees htidy, htext]
  · rw [htree', ← htext, ← Listing.text_trees htidy]
    exact spliced_of_shows hshows hu

/-- Two parameters: no white space behind a colon and a comma, too much
behind the other colon, and some where none belongs. -/
theorem parameter_lists_settle_two_parameters :
    let t := Tree.build .file
      [.start .function, .start .parameterList, .token .leftParen "(",
        .token .whitespace " ",
        .start .parameter, .token .identifier "a", .token .whitespace " ",
          .token .colon ":",
        .start .typeReference, .token .identifier "A", .finish, .finish,
        .token .whitespace " ", .token .comma ",",
        .start .parameter, .token .identifier "b", .token .colon ":",
          .token .whitespace "  ",
        .start .typeReference, .token .identifier "B", .finish, .finish,
        .token .whitespace " ", .token .rightParen ")"]
    let w : Session Unit :=
      { engine := { registry := ⟨0, [(info.id, provider)]⟩ }, tree := t }
    t.toText = "( a :A ,b:  B )" ∧
    ∃ w' f enough, (∀ fuel, enough ≤ fuel → w.format fuel Policy.all {} =
      some (w', .ok f)) ∧
      w'.tree.text 2 = "(a: A, b: B)" ∧ f.passes ≤ 2 ∧ f.failures = [] ∧
      ∃ w'' o enough', (∀ fuel, enough' ≤ fuel →
          w'.lint fuel {} = some (w'', .ok o)) ∧ o.violations = [] := by
  intro t w
  let a : Parameter := ⟨5, 6, "a", some (7, " "), 8, none, 9, 10, "A"⟩
  let b : Parameter := ⟨13, 14, "b", none, 15, some (16, "  "), 17, 18, "B"⟩
  let l : Listing := ⟨3, some (4, " "), .some a [⟨some (11, " "), 12, none, b⟩],
    some (19, " "), 20⟩
  have hreach : t.Reachable := ⟨_, _, [], rfl⟩
  have hinline : l.IsInline := by
    simp [l, a, b, Listing.IsInline, Listing.gaps, Parameters.gaps, Entry.gaps,
      Parameter.gaps, Gap.IsInline,
      Tree.hasBreak]
  have honly : ∀ m, t.isAttached m = true → t.hasKind m .parameterList =
      true → m = 2 := by
    intro m hm hkind
    have hcount : m < 21 := hreach.consistent.sound.lt_count
      (hreach.consistent.sound.mem_document_iff.mpr hm)
    have hall : ∀ m < 21, t.hasKind m .parameterList = true → m = 2 := by
      decide +kernel
    exact hall m hcount hkind
  obtain ⟨w', f, enough, hformat, htext, -, hpasses, hfailures, hlint⟩ :=
    parameter_lists_settle w {} 2 l rfl (OrderCache.faithful_empty _)
      (by decide +kernel) hreach (by decide +kernel)
      (by decide +kernel) hinline honly (by decide +kernel)
  have hcanonical : l.canonical = "(a: A, b: B)" := by decide +kernel
  exact ⟨by decide +kernel, w', f, enough, hformat, htext.trans hcanonical,
    hpasses, hfailures, hlint⟩

end TreeLint
