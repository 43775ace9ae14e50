import TreeLint.Proofs.Standard.Reactions

/-!
# Parameter lists

A parameter list is visited in steps, each of which looks at the tree as the
steps before it left it, but the children to visit are those there were at
the start. `Spacing` is what the steps keep. All code stays where it was.
The children that are still to be visited are still there, in order: white
space is removed only before the colon of the parameter that is visited, and
comes before all of them. So every correction finds what it is about and
succeeds, and what comes out is a reaction to the list (`sure_before`).

Specification, §13.
-/

namespace TreeLint.Standard.ParameterSpacing

variable {σ : Type} {t u v : Tree} {list c m z space colon : NodeId}
  {cs ss : List NodeId} {x : String} {ops : List Op}

open TreeLint.Tree (Reaction Respaced)

/-- In a visit of a list that began with `t`, the children `cs` and the
white space `ss` are still to be looked at. -/
structure Spacing (t : Tree) (list : NodeId) (cs ss : List NodeId)
    (u : Tree) : Prop where
  start : t.Sound
  tidy : u.Tidy isOperator
  steady : t.Steady (fun _ => False) u
  resting : ∀ m, Resting t.document m → Resting u.document m
  listed : ∀ c ∈ cs, c ∈ u.document.ids ∧ u.parent? c = some list
  order : cs.Pairwise u.document.Precedes
  spaces : ∀ s ∈ ss, s ∈ u.document.ids ∧ u.hasKind s .whitespace = true

namespace Spacing

theorem tail (h : Spacing t list (c :: cs) ss u) : Spacing t list cs [] u :=
  { h with
    listed := (List.forall_mem_cons.mp h.listed).2
    order := (List.pairwise_cons.mp h.order).2
    spaces := fun _ hs => nomatch hs }

theorem seen (h : Spacing t list cs (space :: ss) u) : Spacing t list cs ss u :=
  { h with spaces := (List.forall_mem_cons.mp h.spaces).2 }

/-- The invariant is about the document. -/
theorem congr (h : Spacing t list cs ss u) (hv : v.Consistent)
    (hdoc : v.document = u.document) (hc : u.count ≤ v.count) :
    Spacing t list cs ss v := by
  have s : u.SameFile v := ⟨h.tidy.sound, hv.sound, hdoc⟩
  have hsteady : u.Steady (fun _ => False) v :=
    .of_document_eq h.tidy.sound hv.sound hdoc hc
  refine ⟨h.start, h.tidy.steady hsteady hv, h.steady.trans hsteady h.start,
    hdoc ▸ h.resting, fun c hc => ?_,
    hdoc ▸ h.order, fun m hm => ?_⟩
  · obtain ⟨hmem, hparent⟩ := h.listed c hc
    exact ⟨s.mem hmem, (s.parent? hmem).trans hparent⟩
  · obtain ⟨hmem, hk⟩ := h.spaces m hm
    exact ⟨s.mem hmem, (s.hasKind hmem _).trans hk⟩

/-- One edit of white space, without a line break, that takes out nothing
that is still to be looked at. -/
theorem respaced (h : Spacing t list cs ss u) (hz : Respaced z x u v)
    (hv : v.Consistent) (hx : Tree.hasBreak x = false)
    (hkept : z ∉ cs ∧ z ∉ ss ∨ v.document.ids = u.document.ids) :
    Spacing t list cs ss v := by
  have hu := h.tidy.sound
  have hsteady : u.Steady (fun _ => False) v := hz.steady hu
  have hmem : ∀ {m}, m ∈ u.document.ids → m ∈ cs ∨ m ∈ ss →
      m ∈ v.document.ids := by
    intro m hm hlist
    rcases hkept with ⟨hcs, hss⟩ | hids
    · refine (hz.keeps.mem_iff (S := [z]) ?_).mpr hm
      rintro hmz
      rw [List.mem_singleton.mp hmz] at hlist
      exact hlist.elim hcs hss
    · exact hids ▸ hm
  refine ⟨h.start, h.tidy.steady hsteady hv, h.steady.trans hsteady h.start,
    fun m hm => resting_of_respaced hu hz (Or.inl hx) (h.resting m hm),
      fun c hc => ?_, ?_, fun m hm => ?_⟩
  · obtain ⟨hcu, hparent⟩ := h.listed c hc
    have hcv := hmem hcu (Or.inl hc)
    refine ⟨hcv, ?_⟩
    by_cases hcz : c = z
    · subst hcz
      exact (hz.parent hcu hcv).trans hparent
    · exact (Tree.label_of_keepsBut hu hv.sound hz.keeps hcu
        (by simpa using hcz)).2.2.trans hparent
  · refine List.Pairwise.imp_of_mem (fun {a b} ha hb hab => ?_) h.order
    rcases hkept with ⟨hcs, -⟩ | hids
    · refine hz.keeps.precedes (S := [z]) ?_ ?_ hab
      · exact fun haz => hcs (List.mem_singleton.mp haz ▸ ha)
      · exact fun hbz => hcs (List.mem_singleton.mp hbz ▸ hb)
    · rw [Forest.Precedes, hids]
      exact hab
  · obtain ⟨hmu, hk⟩ := h.spaces m hm
    have hmv := hmem hmu (Or.inr hm)
    refine ⟨hmv, ?_⟩
    rw [Tree.hasKind, (hsteady.label m hmu hmv).1]
    exact hk

/-- A correction that is one such edit. -/
theorem sure_correct (h : Spacing t list cs ss u) (hplan : Plan u ops)
    (hready : ∀ op ∈ ops, op.Ready u)
    (hedit : ∀ v, Op.Succeed ops u.begin v → ∃ z, Respaced z " " u.begin v ∧
      (z ∉ cs ∧ z ∉ ss ∨ v.document.ids = u.document.ids))
    (offset : Nat) (message : String) (memory : σ) :
    (Hook.correct offset message ops memory).Sure (Spacing t list cs ss) u := by
  refine hplan.sure_correct h.tidy.consistent hready h (fun v hv => ?_) offset
    message memory
  have hbegin := h.tidy.consistent.begin
  have hcons := hv.consistent hbegin
  obtain ⟨z, hz, hkept⟩ := hedit v hv
  have hedited := (h.congr hbegin rfl (Nat.le_refl _)).respaced hz
    hcons rfl hkept
  exact hedited.congr (hcons.close _) rfl (Nat.le_refl _)

section Edits

variable (h : Spacing t list cs ss u)

include h

/-- **White space can be removed,** unless it is still to be looked at. -/
theorem sure_removeSpace (hs : space ∈ u.document.ids)
    (hk : u.hasKind space .whitespace = true) (hcs : space ∉ cs)
    (hss : space ∉ ss) (memory : σ) :
    (removeSpace u space memory).Sure (Spacing t list cs ss) u := by
  have hroot := h.tidy.ne_root_of_hasKind hk (by decide)
  refine h.sure_correct (.plain (.detach hs)) (by simpa [Op.Ready] using hroot)
    (fun v hv => ?_) _ _ memory
  obtain _ | ⟨hok, ⟨⟩⟩ := hv
  have hleaf := h.tidy.isLeaf_of_kind hs (beq_iff_eq.mp hk) rfl
  exact ⟨space, Tree.respaced_detach
    (t := u.begin) h.tidy.consistent.begin.sound hs (beq_iff_eq.mp hk) hleaf
    (Edited.failure_eq_none hok) " ", Or.inl ⟨hcs, hss⟩⟩

/-- **It can be made a single space.** -/
theorem sure_makeSingle (hs : space ∈ u.document.ids)
    (hk : u.hasKind space .whitespace = true) (memory : σ) :
    (makeSingle u space memory).Sure (Spacing t list cs ss) u := by
  have hleaf := h.tidy.isLeaf_of_kind hs (beq_iff_eq.mp hk) rfl
  refine h.sure_correct (.replaceText " " hs) (by simpa [Op.Ready] using hleaf)
    (fun v hv => ?_) _ _ memory
  obtain _ | ⟨hok, ⟨⟩⟩ := hv
  have hbegin := h.tidy.consistent.begin.sound
  exact ⟨space, Tree.respaced_replaceText (t := u.begin) hbegin hs
    (beq_iff_eq.mp hk) hleaf " ",
    Or.inr (Tree.ids_replaceText hbegin space " ")⟩

/-- **A space can be put behind any node but the root.** -/
theorem sure_addSpaceAfter (hm : m ∈ u.document.ids) (hroot : m ≠ Tree.root)
    (memory : σ) :
    (addSpaceAfter u m memory).Sure (Spacing t list cs ss) u := by
  refine h.sure_correct (.plain (.spaceAfter hm rfl .nil))
    (by simpa [Op.Ready] using hroot) (fun v hv => ?_) _ _ memory
  obtain _ | ⟨hok, ⟨⟩⟩ := hv
  obtain ⟨z, hz, hfresh | hids⟩ :=
    Tree.respaced_spaceAfter (t := u.begin) (x := " ")
    h.tidy.consistent.begin.sound hm rfl (Edited.failure_eq_none hok)
  · exact ⟨z, hz, Or.inl ⟨fun hc => hfresh (h.listed z hc).1, fun hs =>
      hfresh (h.spaces z hs).1⟩⟩
  · exact ⟨z, hz, Or.inr hids⟩

end Edits

end Spacing

/-! ## Parameters -/

theorem sure_visitModifierSpace (h : Spacing t list cs (space :: ss) u)
    (memory : σ) :
    (visitModifierSpace space memory).Sure (Spacing t list cs ss) u := by
  obtain ⟨hs, hk⟩ := h.spaces space List.mem_cons_self
  rw [visitModifierSpace, Hook.sure_inspect]
  split
  · exact h.seen
  · exact h.seen.sure_makeSingle hs hk memory

/-- The white space before the colon comes before what follows the parameter. -/
theorem sure_visitBeforeColon (h : Spacing t list (c :: cs) ss u)
    (hcolon : u.parent? colon = some c) (memory : σ) :
    (visitBeforeColon colon memory).Sure (Spacing t list cs []) u := by
  have hu := h.tidy.sound
  have hnodup := hu.nodup_document
  obtain ⟨hc, hparent⟩ := h.listed c List.mem_cons_self
  have hin := (hu.parent_mem_document_iff hcolon).mp hc
  rw [visitBeforeColon, Hook.sure_inspect]
  split
  · next space hspace =>
    obtain ⟨hprev, hk⟩ := Option.filter_eq_some_iff.mp hspace
    refine h.tail.sure_removeSpace (hu.prevLeaf_mem_document hin hprev) hk
      (fun hcs => ?_) List.not_mem_nil memory
    -- A space before the colon is no later child of the list, since those
    -- come behind the colon.
    have hbefore : u.document.Precedes space colon := by
      obtain ⟨pre, post, har⟩ := hu.around hin
      rw [Tree.prevLeaf?, (hu.tokens_of_around har).1] at hprev
      obtain ⟨pre, tok, rfl, rfl⟩ := exists_last hprev
      exact har.precedes_of_mem_pre (by simp)
    have hafter : u.document.Precedes colon space := by
      have hroots := hu.offspring_document (hu.parent_mem_document hc hparent)
      have hsub := hu.subtree?_document hc
      refine ((List.pairwise_cons.mp h.order).1 space hcs).of_below hnodup
        (p := list) ?_ ?_ hsub ?_
      · exact hroots ▸ hu.parent?_eq_some_iff.mp hparent
      · exact hroots ▸ hu.parent?_eq_some_iff.mp (h.tail.listed space hcs).2
      · rw [Forest.mem_subtree?_iff hnodup hsub, hu.ancestors?_document hin,
          Option.getD_some,
          Tree.ancestors_of_parent? hu.nodup hcolon]
        exact Or.inr List.mem_cons_self
    exact hbefore.asymm hnodup hafter
  · exact h.tail

/-- The white space behind a colon is put right, or left since the type
would not fit. -/
theorem sure_visitAfterColon (h : Spacing t list cs [] u)
    (hcolon : t.IsCode colon) (hroot : colon ≠ Tree.root) (limit : Option Nat)
    (parameter : NodeId) (memory : σ) :
    (visitAfterColon limit parameter colon memory).Sure
      (Spacing t list cs []) u := by
  have hin := (h.steady.isCode hcolon).1
  rw [visitAfterColon, Hook.sure_inspect]
  split
  · exact h.sure_addSpaceAfter hin hroot memory
  · next space hspace =>
    obtain ⟨hnext, hk⟩ := Option.filter_eq_some_iff.mp hspace
    split
    · exact h
    · exact h.sure_makeSingle (h.tidy.sound.nextLeaf_mem_document hin hnext) hk
        memory

/-- The colon of a parameter, with the white space on both sides. -/
theorem sure_visitColon (h : Spacing t list (c :: cs) [] u) (limit : Option Nat)
    (memory : σ) :
    (visitColon limit c memory).Sure (Spacing t list cs []) u := by
  rw [visitColon, Hook.sure_inspect]
  split
  · exact h.tail
  · next colon hcolon =>
    have hk : u.hasKind colon .colon = true :=
      List.find?_some (p := fun c => u.hasKind c .colon) hcolon
    have hparent : u.parent? colon = some c :=
      h.tidy.sound.parent?_eq_some_iff.mpr (List.mem_of_find?_eq_some hcolon)
    have hin := (h.tidy.sound.parent_mem_document_iff hparent).mp
      (h.listed c List.mem_cons_self).1
    have hcode : u.IsCode colon := by
      refine ⟨hin, ?_⟩
      rw [Tree.kindIs, beq_iff_eq.mp hk]
      rfl
    refine ((sure_visitBeforeColon h hparent memory).mono
      fun v hv memory => ?_).andThen
    exact sure_visitAfterColon hv (h.steady.isCode_iff.mp hcode)
      (h.tidy.ne_root_of_hasKind hk (by decide)) limit c
      memory

/-- A parameter: its modifiers, then its colon. -/
theorem sure_visitParameter (h : Spacing t list (c :: cs) [] u)
    (limit : Option Nat) (memory : σ) :
    (visitParameter limit c memory).Sure (Spacing t list cs []) u := by
  have hspaces : Spacing t list (c :: cs) (modifierSpaces u c) u :=
    { h with
      spaces := fun s hs =>
        ⟨modifierSpace_mem_document h.tidy.sound
          (h.listed c List.mem_cons_self).1 hs,
          hasKind_of_mem_modifierSpaces hs⟩ }
  have hstep : ∀ space ss v (memory : σ),
      Spacing t list (c :: cs) (space :: ss) v →
      (visitModifierSpace space memory).Sure (Spacing t list (c :: cs) ss) v :=
    fun _ _ _ memory hv => sure_visitModifierSpace hv memory
  have heach := Hook.sure_each hstep memory hspaces
  exact (heach.mono fun v hv memory => sure_visitColon hv limit memory).andThen

/-! ## Lists -/

/-- White space between the parameters. -/
theorem sure_visitSpace (h : Spacing t list (c :: cs) [] u)
    (hk : u.hasKind c .whitespace = true) (layout : Layout) (seen : Nat)
    (memory : σ) :
    (visitSpace layout seen c memory).Sure (Spacing t list cs []) u := by
  have hin := (h.listed c List.mem_cons_self).1
  have hcs : c ∉ cs := fun hc =>
    ((List.pairwise_cons.mp h.order).1 c hc).ne h.tidy.sound.nodup_document rfl
  have hremove := h.tail.sure_removeSpace hin hk hcs List.not_mem_nil memory
  rw [visitSpace, Hook.sure_inspect]
  split_ifs
  · exact hremove
  · exact hremove
  · exact h.tail
  · exact hremove
  · exact h.tail.sure_makeSingle hin hk memory
  · exact h.tail

theorem sure_visitComma (h : Spacing t list (c :: cs) [] u)
    (hk : u.hasKind c .comma = true) (memory : σ) :
    (visitComma c memory).Sure (Spacing t list cs []) u := by
  rw [visitComma, Hook.sure_inspect]
  split
  · exact h.tail.sure_addSpaceAfter (h.listed c List.mem_cons_self).1
      (h.tidy.ne_root_of_hasKind hk (by decide)) memory
  · exact h.tail

/-- The children keep the kinds they had when the list was entered. -/
theorem sure_visitList (limit : Option Nat) (layout : Layout) (seen : Nat)
    (hcs : ∀ c ∈ cs, c ∈ t.document.ids) (h : Spacing t list cs [] u)
    (memory : σ) :
    (visitList limit t layout seen cs memory).Sure
      (Spacing t list [] []) u := by
  -- Along the children still to be visited; each kind of child has its own
  -- lemma.
  induction cs generalizing seen u memory with
  | nil => exact h
  | cons c cs ih =>
    obtain ⟨hc, hcs⟩ := List.forall_mem_cons.mp hcs
    have hkind : ∀ {k}, t.hasKind c k = true → u.hasKind c k = true := by
      intro k hk
      rw [Tree.hasKind,
        (h.steady.label c hc (h.listed c List.mem_cons_self).1).1]
      exact hk
    have hrest : ∀ seen v, Spacing t list cs [] v → ∀ memory : σ,
        (visitList limit t layout seen cs memory).Sure
            (Spacing t list [] []) v :=
      fun seen v hv memory => ih seen hcs hv memory
    simp only [visitList]
    split_ifs with hspace hcomma
    · exact ((sure_visitSpace h (hkind hspace) layout seen memory).mono
        (hrest seen)).andThen
    · exact ((sure_visitComma h (hkind hcomma) memory).mono
        (hrest seen)).andThen
    · exact ((sure_visitParameter h limit memory).mono
        (hrest (seen + 1))).andThen
    · exact ih seen hcs h.tail memory

/-- **A parameter list** is respaced, and all else stays where it is. -/
theorem sure_before (ht : t.Tidy isOperator) (hn : m ∈ t.document.ids)
    (limit : Option Nat) (memory : σ) :
    (before limit m memory).Sure (Reaction Resting m t) t := by
  rw [before, Hook.sure_inspect]
  split
  · next hk =>
    have hkids : (t.children m).Sublist t.document.ids := by
      rw [← ht.sound.offspring_document hn]
      exact (Forest.roots_sublist_ids _).trans
        ((List.sublist_cons_self _ _).trans (Forest.offspring_sublist hn))
    have hstart : Spacing t m (t.children m) [] t :=
      { start := ht.sound
        tidy := ht
        steady := .refl ht.sound
        resting := fun _ hrest => hrest
        listed := fun c hc => ⟨hkids.subset hc,
          ht.sound.parent?_eq_some_iff.mpr hc⟩
        order := List.pairwise_iff_forall_sublist.mpr fun hpair =>
          hpair.trans hkids
        spaces := fun _ hs => nomatch hs }
    have hcode : t.IsCode m := by
      refine ⟨hn, ?_⟩
      rw [Tree.kindIs, beq_iff_eq.mp hk]
      rfl
    have hlist : t.kindIs m (· == .parameterList) = true :=
      kindIs_of_hasKind hk rfl
    have hrest := not_resting_of_kind ht.sound hlist ⟨rfl, rfl⟩
    refine (sure_visitList limit _ 0 (fun c hc => hkids.subset hc) hstart
      memory).mono fun u hu => ?_
    exact .of_steady hu.steady ht.sound hu.tidy.sound
      (ht.ne_root_of_hasKind hk (by decide)) hcode hrest
      fun m _ _ hm => hu.resting m hm
  · exact .of_document_eq ht.sound ht.sound rfl (Nat.le_refl _)

end TreeLint.Standard.ParameterSpacing
