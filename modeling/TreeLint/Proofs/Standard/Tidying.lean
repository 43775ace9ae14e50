import TreeLint.Proofs.Lint.Alone
import TreeLint.Proofs.Standard.Listing

/-!
# What the rule does to a parameter list

One call of the rule for a parameter list that is written on one line,
followed from left to right. The trees below the list are split into those
the rule has been through and those it has not (`Reading`); these are still
as they were when it began, and the list of children it goes by was made
then (`Pictured`). There is one lemma for each thing the rule comes across:
a gap where no white space belongs, a comma, a parameter. Each of them
leaves a tidy piece behind, and reports something only if the piece was not
tidy.

So a call leaves a tidy list with the same canonical text, and reports
nothing if the list was tidy (`achieves_before`).

Specification, §13.
-/

namespace TreeLint.Standard.ParameterSpacing

open Forest (Context Layer)
open Forest.Context

variable {σ : Type} {memory : σ} {post : Nat → Tree → Prop} {reports seen : Nat}
  {limit : Option Nat} {t t₀ : Tree} {C : Context} {l : Layer} {list z : NodeId}
  {k : Kind} {x y : String} {tok : Token} {done rest : Forest} {gap : Gap}
  {layout : Layout}

/-! ## Corrections -/

theorem achieves_removeSpace (h : t.Shows (fill (l :: C) (.token z k y .nil)))
    (hpost : ∀ u, u.Shows (fill (l :: C) .nil) → post (reports + 1) u) :
    (removeSpace t z memory).Achieves memory post reports t := by
  obtain ⟨hok, hshows⟩ := h.begin.detach
  exact Hook.achieves_correct _ _ rfl hok (hpost _ (hshows.commit _))

theorem achieves_makeSingle (h : t.Shows (fill C (.token z k y .nil)))
    (hpost : ∀ u, u.Shows (fill C (.token z k " " .nil)) →
      post (reports + 1) u) :
    (makeSingle t z memory).Achieves memory post reports t := by
  obtain ⟨hok, hshows⟩ := h.begin.replaceText " "
  exact Hook.achieves_correct _ _ rfl hok (hpost _ (hshows.commit _))

/-- A space is put in where none is, with one report. -/
theorem achieves_addSpaceAfter (h : t.Shows (fill (l :: C) (.token z k y .nil)))
    (hnext : (rightTokens (l :: C)).head? = some tok)
    (htok : tok.kind ≠ .whitespace)
    (hpost : ∀ u new, u.Shows
      (fill (l :: C) (.token z k y (.token new .whitespace " " .nil))) →
      post (reports + 1) u) :
    (addSpaceAfter t z memory).Achieves memory post reports t := by
  have hx : " ".isEmpty = false := by decide
  obtain ⟨hok, new, hshows⟩ := h.begin.spaceAfter hx hnext htok
  exact Hook.achieves_correct _ _ rfl hok (hpost _ new (hshows.commit _))

/-! ## Reading from left to right -/

/-- The trees below a node: some were read, and some are ahead. -/
def Reading (C : Context) (parent : NodeId) (k : Kind) (done rest : Forest)
    (t : Tree) : Prop :=
  t.Shows (fill C (.node parent k (done.append rest) .nil))

namespace Reading

variable {parent : NodeId} {k' : Kind} {s : Forest}

/-- The next tree is a token. -/
theorem token (h : Reading C parent k done (.token z k' y rest) t) :
    t.Shows (fill (⟨parent, k, done, rest⟩ :: C) (.token z k' y .nil)) := h

theorem advance_iff :
    Reading C parent k done (s.append rest) t ↔
      Reading C parent k (done.append s) rest t := by
  unfold Reading
  rw [Forest.append_assoc]

theorem nextLeaf? (h : Reading C parent k done (.token z k' y rest) t)
    (hnext : rest.tokens.head? = some tok) :
    t.nextLeaf? z = some tok.id ∧ t.kind? tok.id = some tok.kind :=
  h.token.nextLeaf?_eq (by simp [rightTokens, List.head?_append, hnext])

theorem prevLeaf? (h : Reading C parent k done (.token z k' y rest) t)
    (hprev : done.tokens.getLast? = some tok) :
    t.prevLeaf? z = some tok.id ∧ t.kind? tok.id = some tok.kind :=
  h.token.prevLeaf?_eq (by simp [leftTokens, List.getLast?_append, hprev])

end Reading

section Steps

variable {parent c : NodeId} {k' : Kind}

/-- White space on one line, and whether it is a single space. -/
theorem inline_token (h : t.Shows (fill C (.token z .whitespace x .nil)))
    (hinline : Tree.hasBreak x = false) :
    t.isBreak z = false ∧ isSingleSpace t z = (x == " ") := by
  obtain ⟨hkind, htext⟩ := h.token
  simp [Tree.isBreak, isSingleSpace, Tree.hasKind, hkind, htext, hinline]

theorem filter_leaf {o : Option NodeId} (ho : o = some tok.id)
    (hkind : t.kind? tok.id = some tok.kind) :
    (o.filter fun leaf => t.hasKind leaf .whitespace) = if tok.kind =
      .whitespace then some tok.id else none := by
  subst ho
  by_cases hk : tok.kind = .whitespace <;>
    simp [Option.filter, Tree.hasKind, hkind, hk]

/-- White space before a colon goes away. -/
theorem achieves_visitBeforeColon
    (h : Reading C parent k done (gap.before (.token c k' y rest)) t)
    (hprev : ∃ tok, done.tokens.getLast? = some tok ∧ tok.kind ≠ .whitespace)
    (hpost : ∀ j u, Reading C parent k done (.token c k' y rest) u →
      (gap = none → j = reports) → post j u) :
    (visitBeforeColon c memory).Achieves memory post reports t := by
  cases gap with
  | none =>
    obtain ⟨tok, hprev, htok⟩ := hprev
    obtain ⟨hleaf, hkind⟩ := h.prevLeaf? hprev
    simp only [visitBeforeColon, Hook.Achieves, filter_leaf hleaf hkind,
      if_neg htok]
    exact ⟨trivial, hpost reports t h fun _ => rfl⟩
  | some e =>
    obtain ⟨z, x⟩ := e
    have hcolon : Reading C parent k (done.append (.token z .whitespace x .nil))
        (.token c k' y rest) t :=
      Reading.advance_iff.mp h
    have hlast : (done.append (.token z .whitespace x .nil)).tokens.getLast? =
        some ⟨z, .whitespace, x⟩ := by
      simp [Forest.tokens_append, Forest.tokens]
    obtain ⟨hleaf, hkind⟩ := hcolon.prevLeaf? hlast
    simp only [visitBeforeColon, Hook.Achieves,
      filter_leaf hleaf hkind, if_true]
    exact achieves_removeSpace h.token fun u hu => hpost _ u hu (by simp)

/-- White space is made a single space, unless it is one. -/
theorem achieves_single {h : Hook σ}
    (hread : Reading C parent k done (.token z .whitespace x rest) t)
    (hhook : h = if x = " " then .finish memory else makeSingle t z memory)
    (hpost : ∀ j u, Reading C parent k done (.token z .whitespace " " rest) u →
      (x = " " → j = reports) → post j u) :
    h.Achieves memory post reports t := by
  subst hhook
  split
  · next hx => exact ⟨rfl, hpost reports t (hx ▸ hread) fun _ => rfl⟩
  · next hx =>
      exact achieves_makeSingle hread.token fun u hu => hpost _ u hu fun heq =>
        absurd heq hx

/-- A single space stands behind a colon in the end. -/
theorem achieves_visitAfterColon
    (h : Reading C parent k done (.token c k' y (gap.before rest)) t)
    (hinline : gap.IsInline)
    (hnext : ∃ tok, rest.tokens.head? = some tok ∧ tok.kind ≠ .whitespace)
    (hpost : ∀ j u gap', Gap.IsSingle gap' →
      Reading C parent k done (.token c k' y (gap'.before rest)) u →
      (gap.IsSingle → j = reports) → post j u) :
    (visitAfterColon limit parent c memory).Achieves memory post reports t := by
  cases gap with
  | none =>
    obtain ⟨tok, hnext, htok⟩ := hnext
    obtain ⟨hleaf, hkind⟩ := h.nextLeaf? hnext
    simp only [visitAfterColon, Hook.Achieves, filter_leaf hleaf hkind,
      if_neg htok]
    refine achieves_addSpaceAfter h.token
      (by simp [rightTokens, List.head?_append, hnext]) htok fun u new hu => ?_
    exact hpost _ u (some (new, " ")) ⟨new, rfl⟩ hu fun hsingle =>
      absurd hsingle Gap.not_isSingle_none
  | some e =>
    obtain ⟨z, x⟩ := e
    have hspace : Reading C parent k (done.append (.token c k' y .nil))
        (.token z .whitespace x rest) t :=
      Reading.advance_iff.mp h
    obtain ⟨hbreak, hsingle⟩ := inline_token hspace.token (hinline z x rfl)
    have hhead : (Forest.token z .whitespace x rest).tokens.head? =
        some ⟨z, .whitespace, x⟩ := rfl
    obtain ⟨hleaf, hkind⟩ := h.nextLeaf? hhead
    simp only [visitAfterColon, Hook.Achieves, filter_leaf hleaf hkind, if_true]
    refine achieves_single hspace (by simp [hbreak, hsingle])
      fun j u hu hj => ?_
    exact hpost j u (some (z, " ")) ⟨z, rfl⟩ (Reading.advance_iff.mpr hu)
      fun hx => hj (Gap.isSingle_some.mp hx)

/-- A parameter becomes tidy. -/
theorem achieves_visitParameter {p : Parameter}
    (h : Reading C list k done (p.before rest) t)
    (hinline : p.afterColon.IsInline)
    (hpost : ∀ j u p', Parameter.IsTidy p' → p'.canonical = p.canonical →
      Reading C list k done (p'.before rest) u →
      (p.IsTidy → j = reports) → post j u) :
    (visitParameter limit p.id memory).Achieves memory post reports t := by
  let C' : Context := ⟨list, k, done, rest⟩ :: C
  have hshows : t.Shows (fill C' (.node p.id .parameter p.trees .nil)) := h
  have hfind : ∀ k', k' ≠ .whitespace → k' ≠ .identifier →
      t.childOfKind? p.id k' = (p.fromColon.rootKinds.find? (·.2 == k')).map
          Prod.fst := by
    intro k' hspace hname
    rw [hshows.childOfKind?_eq, Parameter.trees, Forest.rootKinds,
      List.find?_cons_of_neg (by simp [Ne.symm hname]),
      Gap.find?_before (· == k') (by simp [Ne.symm hspace])]
  have hmodifiers : modifierSpaces t p.id = [] := by
    have hnone : t.childOfKind? p.id .modifierList = none := by
      rw [hfind .modifierList (by decide) (by decide), Parameter.fromColon,
        Forest.rootKinds,
        List.find?_cons_of_neg (by simp),
          Gap.find?_before (· == .modifierList) rfl]
      rfl
    simp [modifierSpaces, hnone]
  have hcolon : t.childOfKind? p.id .colon = some p.colon :=
    hfind .colon (by decide) (by decide)
  simp only [visitParameter, Hook.Achieves, hmodifiers, Hook.each, Hook.andThen,
    visitColon, hcolon]
  have hread : Reading C' p.id .parameter
      (.token p.name .identifier p.nameText .nil)
      (p.beforeColon.before p.fromColon) t := h
  refine (achieves_visitBeforeColon hread ⟨⟨p.name, .identifier, p.nameText⟩,
    rfl, by simp⟩ ?_).andThen
  intro j u hu hj
  refine achieves_visitAfterColon hu hinline
    ⟨⟨p.typeName, .identifier, p.typeText⟩, rfl, by simp⟩ ?_
  intro j' u' gap hgap hu' hj'
  refine hpost j' u' { p with
    beforeColon := none, afterColon := gap } ⟨rfl, hgap⟩ rfl hu' fun htidy => ?_
  rw [hj' htidy.afterColon, hj htidy.beforeColon]

end Steps

/-! ## Lists -/

section Lists

variable {total : Nat} {c i : NodeId} {later : List (NodeId × Kind)}

/-- White space where none belongs goes away. -/
theorem achieves_visitSpace_removed
    (h : Reading C list k done (.token z .whitespace x rest) t)
    (hinline : Tree.hasBreak x = false)
    (hplace : (seen = 0 ∨ seen = total) ∨ ∃ i later,
      rest.rootKinds = (i, .comma) :: later)
    (hpost : ∀ u, Reading C list k done rest u → post (reports + 1) u) :
    (visitSpace ⟨total, true⟩ seen z memory).Achieves memory post
      reports t := by
  obtain ⟨hbreak, -⟩ := inline_token h.token hinline
  have hremove : (removeSpace t z memory).Achieves memory post reports t :=
    achieves_removeSpace h.token hpost
  simp only [visitSpace, Hook.Achieves, hbreak, and_true, if_true]
  split
  · exact hremove
  · split
    · exact hremove
    · next hmiddle =>
      obtain ⟨i, later, hcomma⟩ := hplace.resolve_left hmiddle
      have hnext : (t.nextCodeSibling? z).any (fun next =>
          t.hasKind next .comma) = true := by
        rw [h.token.any_nextCodeSibling, hcomma]
        rfl
      rw [if_pos hnext]
      exact hremove

/-- White space between parameters that is not before a comma becomes a
single space. -/
theorem achieves_visitSpace_single
    (h : Reading C list k done (.token z .whitespace x rest) t)
    (hinline : Tree.hasBreak x = false) (hfirst : 0 < seen)
    (hlast : seen < total) (hnext : rest.rootKinds = (i, .parameter) :: later)
    (hpost : ∀ j u, Reading C list k done (.token z .whitespace " " rest) u →
      (x = " " → j = reports) → post j u) :
    (visitSpace ⟨total, true⟩ seen z memory).Achieves memory post
      reports t := by
  obtain ⟨hbreak, hsingle⟩ := inline_token h.token hinline
  have hcomma : (t.nextCodeSibling? z).any (fun next => t.hasKind next .comma) =
      false := by
    rw [h.token.any_nextCodeSibling, hnext]
    rfl
  have hempty : total ≠ 0 := by omega
  have hmiddle : ¬(seen = 0 ∨ seen = total) := by omega
  simp only [visitSpace, Hook.Achieves]
  refine achieves_single h ?_ hpost
  simp [hbreak, hsingle, hcomma, hempty, hmiddle]

/-- The outermost nodes of a forest have their kinds in a tree. -/
def Pictured (f : Forest) (t : Tree) : Prop :=
  ∀ e ∈ f.rootKinds, t.kind? e.1 = some e.2

theorem Pictured.token (h : Pictured (.token z k y rest) t) :
    t.kind? z = some k ∧ Pictured rest t :=
  List.forall_mem_cons.mp h

theorem Pictured.node {f : Forest} (h : Pictured (.node z k f rest) t) :
    t.kind? z = some k ∧ Pictured rest t :=
  List.forall_mem_cons.mp h

/-- A gap where no white space belongs. -/
theorem achieves_visitList_removed (hpic : Pictured (gap.before rest) t₀)
    (h : Reading C list k done (gap.before rest) t) (hinline : gap.IsInline)
    (hplace : (seen = 0 ∨ seen = total) ∨ ∃ i later,
      rest.rootKinds = (i, .comma) :: later)
    (hrest : ∀ j u, Pictured rest t₀ → Reading C list k done rest u →
      (gap = none → j = reports) →
      (visitList limit t₀ ⟨total, true⟩ seen rest.roots memory).Achieves
      memory post j u) :
    (visitList limit t₀ ⟨total, true⟩ seen (gap.before rest).roots
      memory).Achieves memory post reports t := by
  cases gap with
  | none => exact hrest reports t hpic h fun _ => rfl
  | some e =>
    obtain ⟨z, x⟩ := e
    obtain ⟨hkind, hpic'⟩ := hpic.token
    have hspace : t₀.hasKind z .whitespace = true := by
      simp [Tree.hasKind, hkind]
    rw [Gap.before, Forest.roots, visitList, if_pos hspace]
    exact (achieves_visitSpace_removed h (hinline z x rfl) hplace fun u hu =>
      hrest _ u hpic' hu (by simp)).andThen

/-- A comma, with the gap behind it. -/
theorem achieves_visitList_comma
    (hpic : Pictured (.token c .comma y (gap.before rest)) t₀)
    (h : Reading C list k done (.token c .comma y (gap.before rest)) t)
    (hinline : gap.IsInline) (hfirst : 0 < seen) (hlast : seen < total)
    (hnext : rest.rootKinds = (i, .parameter) :: later)
    (hleaf : ∃ tok, rest.tokens.head? = some tok ∧ tok.kind = .identifier)
    (hrest : ∀ j u gap', Pictured rest t₀ → Gap.IsSingle gap' →
      Reading C list k (done.append (.token c .comma y (gap'.before .nil))) rest
      u → (gap.IsSingle → j = reports) →
      (visitList limit t₀ ⟨total, true⟩ seen rest.roots memory).Achieves
      memory post j u) :
    (visitList limit t₀ ⟨total, true⟩ seen
      (Forest.token c .comma y (gap.before rest)).roots memory).Achieves
      memory post reports t := by
  obtain ⟨hkind, hpic'⟩ := hpic.token
  have hspace : t₀.hasKind c .whitespace = false := by
    simp [Tree.hasKind, hkind]
  have hcomma : t₀.hasKind c .comma = true := by simp [Tree.hasKind, hkind]
  rw [Forest.roots, visitList, hspace, if_neg Bool.false_ne_true, if_pos hcomma]
  cases gap with
  | none =>
    obtain ⟨tok, hhead, htok⟩ := hleaf
    have hright : (rightTokens (⟨list, k, done, rest⟩ :: C)).head? =
        some tok := by
      simp [rightTokens, List.head?_append, hhead]
    obtain ⟨hnextLeaf, hleafKind⟩ := h.nextLeaf? hhead
    have hadd : (visitComma c memory).Achieves memory (fun j u =>
        (visitList limit t₀ ⟨total, true⟩ seen rest.roots memory).Achieves
            memory post j u) reports t := by
      simp only [visitComma, Hook.Achieves, hnextLeaf, Option.any_some,
        Tree.kindIs, hleafKind, htok]
      refine achieves_addSpaceAfter h.token hright (by simp [htok])
        fun u new hu => ?_
      exact hrest _ u (some (new, " ")) hpic' ⟨new, rfl⟩
          (Reading.advance_iff.mp hu) fun hsingle =>
        absurd hsingle Gap.not_isSingle_none
    exact hadd.andThen
  | some e =>
    obtain ⟨z, x⟩ := e
    obtain ⟨hkind', hpic''⟩ := hpic'.token
    have hspace' : t₀.hasKind z .whitespace = true := by
      simp [Tree.hasKind, hkind']
    have hhead : (Forest.token z .whitespace x rest).tokens.head? =
        some ⟨z, .whitespace, x⟩ := rfl
    obtain ⟨hnextLeaf, hleafKind⟩ := h.nextLeaf? hhead
    have hahead : Reading C list k (done.append (.token c .comma y .nil))
        (.token z .whitespace x rest) t :=
      Reading.advance_iff.mp h
    have hkeep : (visitComma c memory).Achieves memory (fun j u =>
        (visitList limit t₀ ⟨total, true⟩ seen (z :: rest.roots)
            memory).Achieves memory post j u) reports t := by
      simp only [visitComma, Hook.Achieves, hnextLeaf, Option.any_some,
        Tree.kindIs, hleafKind]
      refine ⟨rfl, ?_⟩
      rw [visitList, if_pos hspace']
      refine (achieves_visitSpace_single hahead (hinline z x rfl) hfirst hlast
        hnext fun j u hu hj => ?_).andThen
      have hread := Reading.advance_iff
        (s := .token z .whitespace " " .nil) |>.mp hu
      rw [Forest.append_assoc] at hread
      exact hrest j u (some (z, " ")) hpic'' ⟨z, rfl⟩ hread fun hx =>
        hj (Gap.isSingle_some.mp hx)
    exact hkeep.andThen

/-- A parameter of the list. -/
theorem achieves_visitList_parameter {p : Parameter}
    (hpic : Pictured (p.before rest) t₀)
    (h : Reading C list k done (p.before rest) t)
    (hinline : p.afterColon.IsInline)
    (hrest : ∀ j u p', Pictured rest t₀ → Parameter.IsTidy p' →
      p'.canonical = p.canonical →
      Reading C list k (done.append (p'.before .nil)) rest u →
      (p.IsTidy → j = reports) →
      (visitList limit t₀ ⟨total, true⟩ (seen + 1) rest.roots memory).Achieves
      memory post j u) :
    (visitList limit t₀ ⟨total, true⟩ seen (p.before rest).roots
      memory).Achieves memory post reports t := by
  obtain ⟨hkind, hpic'⟩ := hpic.node
  have hspace : t₀.hasKind p.id .whitespace = false := by
    simp [Tree.hasKind, hkind]
  have hcomma : t₀.hasKind p.id .comma = false := by simp [Tree.hasKind, hkind]
  have hparameter : t₀.hasKind p.id .parameter = true := by
    simp [Tree.hasKind, hkind]
  rw [Parameter.before, Forest.roots, visitList, hspace, hcomma,
    if_neg Bool.false_ne_true,
    if_neg Bool.false_ne_true, if_pos hparameter]
  refine (achieves_visitParameter h hinline fun j u p' htidy htext hu hj =>
    ?_).andThen
  exact hrest j u p' hpic' htidy htext (Reading.advance_iff.mp hu) hj

/-- The parameters behind the first one, from left to right. -/
theorem achieves_visitList_entries {es : List Entry}
    (hpic : Pictured (Entry.allBefore es rest) t₀)
    (h : Reading C list k done (Entry.allBefore es rest) t)
    (hinline : ∀ e ∈ es, ∀ gap ∈ e.gaps, Gap.IsInline gap) (hfirst : 0 < seen)
    (hcount : seen + es.length = total)
    (hrest : ∀ j u es', Pictured rest t₀ → (∀ e ∈ es', Entry.IsTidy e) →
      es'.map (fun e => e.parameter.canonical) =
      es.map (fun e => e.parameter.canonical) →
      Reading C list k (done.append (Entry.allBefore es' .nil)) rest u →
      ((∀ e ∈ es, e.IsTidy) → j = reports) →
      (visitList limit t₀ ⟨total, true⟩ total rest.roots memory).Achieves
      memory post j u) :
    (visitList limit t₀ ⟨total, true⟩ seen (Entry.allBefore es rest).roots
      memory).Achieves memory post reports t := by
  -- what is ahead gets shorter, and tidy entries gather in what was read
  induction es generalizing seen done reports t with
  | nil =>
    obtain rfl : seen = total := hcount
    have hread : Reading C list k (done.append (Entry.allBefore [] .nil))
        rest t := by
      rw [Entry.allBefore, List.foldr_nil, Forest.append_nil]
      exact h
    exact hrest reports t [] hpic (by simp) rfl hread fun _ => rfl
  | cons e es ih =>
    have hgaps := hinline e List.mem_cons_self
    rw [List.length_cons] at hcount
    refine achieves_visitList_removed hpic h (hgaps _ (by simp [Entry.gaps]))
      (.inr ⟨_, _, rfl⟩) ?_
    intro j₁ u₁ hpic₁ hu₁ hj₁
    refine achieves_visitList_comma hpic₁ hu₁ (hgaps _ (by simp [Entry.gaps]))
      hfirst (by omega) rfl
      ⟨_, rfl, rfl⟩ ?_
    intro j₂ u₂ gap hpic₂ hgap hu₂ hj₂
    refine achieves_visitList_parameter hpic₂ hu₂
      (hgaps _ (by simp [Entry.gaps, Parameter.gaps])) ?_
    intro j₃ u₃ p hpic₃ hp htext hu₃ hj₃
    refine ih hpic₃ hu₃ (fun e' he' => hinline e' (List.mem_cons_of_mem _ he'))
      (by omega) (by omega) ?_
    intro j u es' hpic' htidy htexts hu hj
    let e' : Entry := ⟨none, e.comma, gap, p⟩
    refine hrest j u (e' :: es') hpic'
      (List.forall_mem_cons.mpr ⟨⟨rfl, hgap, hp⟩, htidy⟩) ?_ ?_ fun hall => ?_
    · simp [e', htext, htexts]
    · have hsame :
          ((done.append (.token e.comma .comma "," (gap.before .nil))).append
            (p.before .nil)).append
          (Entry.allBefore es' .nil) =
              done.append (Entry.allBefore (e' :: es') .nil) := by
        rw [Forest.append_assoc, Forest.append_assoc, Forest.append,
          Gap.append_before]
        rfl
      rw [← hsame]
      exact hu
    · obtain ⟨he, hes⟩ := List.forall_mem_cons.mp hall
      rw [hj hes, hj₃ he.parameter, hj₂ he.afterComma, hj₁ he.beforeComma]

/-- All parameters of a list. -/
theorem achieves_visitList_parameters {ps : Parameters}
    (hpic : Pictured (ps.before rest) t₀)
    (h : Reading C list k done (ps.before rest) t)
    (hinline : ∀ gap ∈ ps.gaps, Gap.IsInline gap)
    (hcount : ps.all.length = total)
    (hrest : ∀ j u ps', Pictured rest t₀ → Parameters.IsTidy ps' →
      ps'.canonical = ps.canonical →
      Reading C list k (done.append (ps'.before .nil)) rest u →
      (ps.IsTidy → j = reports) →
      (visitList limit t₀ ⟨total, true⟩ total rest.roots memory).Achieves
      memory post j u) :
    (visitList limit t₀ ⟨total, true⟩ 0 (ps.before rest).roots memory).Achieves
      memory post reports t := by
  cases ps with
  | none =>
    obtain rfl : 0 = total := hcount
    refine hrest reports t .none hpic trivial rfl ?_ fun _ => rfl
    rw [Parameters.before, Forest.append_nil]
    exact h
  | some p es =>
    have htotal : 0 + 1 + es.length = total := by
      simp only [Parameters.all, List.length_cons, List.length_map] at hcount
      omega
    have hparameter : p.afterColon.IsInline :=
      hinline _ (by simp [Parameters.gaps, Parameter.gaps])
    have hentries : ∀ e ∈ es, ∀ gap ∈ e.gaps, Gap.IsInline gap := by
      intro e he gap hgap
      exact hinline gap (List.mem_append_right _
        (List.mem_flatMap.mpr ⟨e, he, hgap⟩))
    refine achieves_visitList_parameter hpic h hparameter ?_
    intro j₁ u₁ p' hpic₁ hp' htext hu₁ hj₁
    refine achieves_visitList_entries hpic₁ hu₁ hentries (by omega) htotal ?_
    intro j u es' hpic' hes' htexts hu hj
    refine hrest j u (.some p' es') hpic' ⟨hp', hes'⟩ ?_ ?_ fun htidy => ?_
    · have hmap : es'.map (Parameter.canonical ∘ Entry.parameter) =
          es.map (Parameter.canonical ∘ Entry.parameter) :=
        htexts
      simp [Parameters.canonical, Parameters.all, htext, hmap]
    · rw [Forest.append_assoc] at hu
      exact hu
    · rw [hj htidy.2, hj₁ htidy.1]

/-- The closing parenthesis is no concern of the rule. -/
theorem achieves_visitList_closing {closing : NodeId}
    (hpic : Pictured (.token closing .rightParen y .nil) t₀)
    (hpost : post reports t) :
    (visitList limit t₀ layout seen
      (Forest.token closing .rightParen y .nil).roots memory).Achieves
      memory post reports t := by
  obtain ⟨hkind, -⟩ := hpic.token
  simp [Forest.roots, visitList, Tree.hasKind, hkind, Hook.Achieves, hpost]

/-- The document with the list in its place. -/
abbrev placed (C : Context) (list : NodeId) (l : Listing) : Forest :=
  fill C (.node list .parameterList l.trees .nil)

/-- Nothing in a list is part of a comment, if the list is not. -/
theorem inComment_child {l : Listing} {e : NodeId × Kind}
    (h : t.Shows (placed C list l))
    (hcomment : ∀ layer ∈ C, layer.kind.isComment = false)
    (he : e ∈ l.trees.rootKinds) :
    t.inComment e.1 = false := by
  have hinside :
      t.Shows (fill (⟨list, .parameterList, .nil, .nil⟩ :: C) l.trees) := by
    rw [fill, Forest.append_nil]
    exact h
  have hkind : e.2.isComment = false := by
    obtain ⟨y, hy⟩ := Forest.exists_label_of_mem_rootKinds he
    have hmem : e.2 ∈ Listing.kinds := kinds_listing l _ hy
    have hall : ∀ k ∈ Listing.kinds, k.isComment = false := by decide
    exact hall _ hmem
  have habove : (C.any fun layer => layer.kind.isComment) = false := by
    simpa [List.any_eq_false] using hcomment
  rw [hinside.inComment_eq he, hkind, List.any_cons, habove]
  rfl

/-- What the rule finds out about a list before it begins. -/
theorem layout_of_shows {l : Listing} (h : t.Shows (placed C list l))
    (hcomment : ∀ layer ∈ C, layer.kind.isComment = false) :
    ParameterSpacing.layout t list = ⟨l.parameters.all.length, true⟩ := by
  have htotal : ((t.children list).filter fun c =>
      t.hasKind c .parameter).length = l.parameters.all.length := by
    rw [h.children_eq, ← Forest.map_fst_rootKinds, List.filter_map,
      List.length_map, ← filter_listing]
    refine congrArg _ (List.filter_congr fun e he => ?_)
    simp [Tree.hasKind, h.kind?_child he]
  have hcomments : ((t.children list).all fun c => !t.inComment c) = true := by
    rw [h.children_eq, ← Forest.map_fst_rootKinds, List.all_map,
      List.all_eq_true]
    intro e he
    simp [inComment_child h hcomment he]
  rw [ParameterSpacing.layout, htotal, hcomments]

/-- **One call brings a list to canonical form,** and does nothing if it is
tidy. -/
theorem achieves_before {l : Listing} (h : t.Shows (placed C list l))
    (hinline : l.IsInline)
    (hcomment : ∀ layer ∈ C, layer.kind.isComment = false) :
    (before limit list memory).Achieves memory (fun j u =>
      (l.IsTidy → j = reports) ∧
      ∃ l' : Listing, l'.IsTidy ∧ l'.canonical = l.canonical ∧
        u.Shows (placed C list l')) reports t := by
  have hlist : t.hasKind list .parameterList = true := by
    simp [Tree.hasKind, (h.label (m := list) List.mem_cons_self).2.1]
  have hpic : Pictured l.trees t := fun e he => h.kind?_child he
  simp only [before, Hook.Achieves, hlist, if_true, layout_of_shows h hcomment,
    h.children_eq]
  obtain ⟨hopening, hpic'⟩ := hpic.token
  have hskip : ∀ cs, visitList limit t ⟨l.parameters.all.length, true⟩ 0
      (l.opening :: cs) memory =
      visitList limit t ⟨l.parameters.all.length, true⟩ 0 cs memory := by
    intro cs
    simp [visitList, Tree.hasKind, hopening]
  rw [Listing.trees, Forest.roots, hskip]
  have hread : Reading C list .parameterList
      (.token l.opening .leftParen "(" .nil)
      (l.afterOpening.before (l.parameters.before l.ending)) t := h
  -- From left to right: behind the opening, the parameters, before the
  -- closing.
  refine achieves_visitList_removed hpic' hread
    (hinline _ (by simp [Listing.gaps])) (.inl (.inl rfl)) ?_
  intro j₁ u₁ hpic₁ hu₁ hj₁
  have hgaps : ∀ gap ∈ l.parameters.gaps, Gap.IsInline gap := fun gap hgap =>
    hinline gap (List.mem_cons_of_mem _ (List.mem_cons_of_mem _ hgap))
  refine achieves_visitList_parameters hpic₁ hu₁ hgaps rfl ?_
  intro j₂ u₂ ps hpic₂ hps htext hu₂ hj₂
  refine achieves_visitList_removed hpic₂ hu₂
    (hinline _ (by simp [Listing.gaps])) (.inl (.inr rfl)) ?_
  intro j u hpic₃ hu hj
  let l' : Listing := ⟨l.opening, none, ps, none, l.closing⟩
  refine achieves_visitList_closing hpic₃ ⟨fun htidy => ?_, l',
    ⟨rfl, rfl, hps⟩, ?_, ?_⟩
  · rw [hj htidy.beforeClosing, hj₂ htidy.parameters, hj₁ htidy.afterOpening]
  · simp [l', Listing.canonical, htext]
  · have hsame : ((Forest.token l.opening .leftParen "(" .nil).append
        (ps.before .nil)).append
        (.token l.closing .rightParen ")" .nil) = l'.trees := by
      rw [Forest.append_assoc, Parameters.append_before]
      rfl
    rw [placed, ← hsame]
    exact hu

end Lists

end TreeLint.Standard.ParameterSpacing
