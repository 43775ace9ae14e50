import TreeLint.Proofs.Standard.LineComments
import TreeLint.Proofs.Tree.Respaced

/-!
# Call operators at rest

A call operator that ends a line is moved to the start of the next one. It
may be met once more after that, and is then left alone: it is at rest,
since no line break separates it from the code that follows
(`resting_openLine`, `breakAfter?_of_resting`). It stays at rest while other
rules edit white space, unless they put a line break behind it
(`resting_of_respaced`).

Specification, §13: operators that must not end a line.
-/

namespace TreeLint.Standard

variable {t u : Tree} {m n z newline : NodeId} {x : String}

/-- A call operator with no line break between it and the code that follows. -/
def Resting (f : Forest) (m : NodeId) : Prop :=
  ∃ front tok back, f.tokens = front ++ tok :: back ∧ tok.id = m ∧
    (tok.kind = .dot ∨ tok.kind = .safeAccess) ∧
    ∀ g ∈ back.takeWhile (·.kind.isTrivia), g.isBreak = false

/-- Only call operators rest. -/
theorem not_resting_of_kind {test : Kind → Bool} (h : t.Sound)
    (hk : t.kindIs n test = true)
    (htest : test .dot = false ∧ test .safeAccess = false) :
    ¬Resting t.document n := by
  rintro ⟨front, tok, back, hsplit, rfl, hkind, -⟩
  have htok : tok ∈ t.document.tokens := by simp [hsplit]
  rw [Tree.kindIs, (h.of_mem_tokens htok).2.1, Option.any_some] at hk
  rcases hkind with hkind | hkind
  · simp [hkind, htest.1] at hk
  · simp [hkind, htest.2] at hk

/-! ## An operator at rest is left alone -/

theorem isBreak_token (h : t.Sound) {tok : Token}
    (htok : tok ∈ t.document.tokens) :
    t.isBreak tok.id = tok.isBreak := by
  obtain ⟨-, hkind, htext⟩ := h.of_mem_tokens htok
  rw [Tree.isBreak, Tree.hasKind, hkind, htext]
  rfl

/-- **The rule finds no line break behind an operator at rest,** so it
leaves it alone. -/
theorem breakAfter?_of_resting (h : t.Sound)
    (ha : t.document.Atomic Kind.isTrivia) (hrest : Resting t.document n) :
    ChainWrapping.breakAfter? t n = none := by
  obtain ⟨front, tok, back, hsplit, rfl, hkind, hgap⟩ := hrest
  by_contra hsome
  obtain ⟨newline, hbreak⟩ := Option.ne_none_iff_exists'.mp hsome
  obtain ⟨hbind, hnewline⟩ := Option.filter_eq_some_iff.mp hbreak
  obtain ⟨c, hc, hprev⟩ := Option.bind_eq_some_iff.mp hbind
  -- the next code, and what is between
  rw [Tree.nextCodeLeaf?, (h.tokens_of_around (h.around_of_tokens hsplit)).2]
    at hc
  obtain ⟨gap, next, rest, rfl, rfl, htrivia, -⟩ :=
    exists_first_code h ha (fun g hg => by simp [hsplit, hg]) hc
  have hsplit' : t.document.tokens = (front ++ tok :: gap) ++ next :: rest := by
    simp [hsplit]
  rw [Tree.prevLeaf?, (h.tokens_of_around (h.around_of_tokens hsplit')).1]
    at hprev
  obtain ⟨front', last, hlast, rfl⟩ := exists_last hprev
  have hmem : last ∈ t.document.tokens := by simp [hsplit', hlast]
  have hline := (isBreak_token h hmem).symm.trans
    (Bool.and_eq_true_iff.mp hnewline).1
  rcases List.eq_nil_or_concat' gap with rfl | ⟨gap, g, rfl⟩
  · obtain rfl : tok = last :=
      List.singleton_inj.mp (List.append_inj' hlast rfl).2
    rcases hkind with hkind | hkind <;> simp [Token.isBreak, hkind] at hline
  · rw [← List.cons_append, ← List.append_assoc] at hlast
    obtain rfl : g = last :=
      List.singleton_inj.mp (List.append_inj' hlast rfl).2
    have hin : g ∈ ((gap ++ [g]) ++ next :: rest).takeWhile
        (·.kind.isTrivia) := by
      rw [List.takeWhile_append_of_pos htrivia]
      simp
    rw [hgap g hin] at hline
    cases hline

/-- Moved behind the line break, a call operator is at rest. -/
theorem resting_openLine (h : t.Sound) (ha : t.document.Atomic Kind.isTrivia)
    (hn : n ∈ t.document.ids) (hleaf : t.isLeaf n = true)
    (hk : t.kindIs n (fun k => k == .dot || k == .safeAccess) = true)
    (hbreak : ChainWrapping.breakAfter? t n = some newline)
    (hok : (t.moveAfter n newline).failure = none) :
    Resting (t.moveAfter n newline).tree.document n := by
  obtain ⟨-, -, pre, gap, tok, back, -, -, -, -, hnew, -, hcode, -, -⟩ :=
    tokens_openLine h ha hn hbreak hok
  obtain ⟨k, y, hkind, -, hsub⟩ := Tree.document_subtree_of_token h hn hleaf
  rw [Option.some.inj ((h.subtree?_document hn).symm.trans hsub)] at hnew
  refine ⟨pre ++ gap, ⟨n, k, y⟩,
    tok :: back, by simpa [Forest.tokens] using hnew, rfl, ?_, fun g hg => ?_⟩
  · rw [Tree.kindIs, hkind, Option.any_some] at hk
    simpa using hk
  · simp [hcode] at hg

/-! ## An operator stays at rest -/

/-- Leaving items out before or after a prefix is taken comes to the same,
if the prefix does not end because of one that is left out. -/
theorem filter_takeWhile {α : Type} {p keep : α → Bool} {l : List α}
    (h : ∀ a ∈ l, p a = false → keep a = true) :
    (l.takeWhile p).filter keep = (l.filter keep).takeWhile p := by
  induction l with
  | nil => rfl
  | cons a l ih =>
    obtain ⟨ha, hl⟩ := List.forall_mem_cons.mp h
    cases hp : p a with
    | false => simp [hp, ha hp]
    | true => cases hkeep : keep a <;> simp [hp, hkeep, ih hl]

/-- A token of code is not the white space `z`. -/
theorem id_ne_of_code (h : t.Sound)
    (hz : z ∈ t.document.ids → t.kind? z = some .whitespace) :
    ∀ a ∈ t.document.tokens, a.kind.isTrivia = false → a.id ≠ z := by
  rintro a ha hcode rfl
  obtain ⟨hmem, hka, -⟩ := h.of_mem_tokens ha
  rw [hz hmem] at hka
  rw [← Option.some.inj hka] at hcode
  cases hcode

/-- White space is edited, without a line break or not behind the operator. -/
theorem resting_of_respaced (ht : t.Sound) (h : Tree.Respaced z x t u)
    (hbreak : Tree.hasBreak x = false ∨ ¬u.document.Precedes m z)
    (hrest : Resting t.document m) :
    Resting u.document m := by
  obtain ⟨front, tok, back, hsplit, rfl, hkind, hgap⟩ := hrest
  have hold := id_ne_of_code ht fun hmem => (h.old hmem).1
  have hnew := id_ne_of_code h.sound fun hmem => (h.new hmem).1
  have hself : tok.id ≠ z := by
    refine hold tok (by simp [hsplit]) ?_
    rcases hkind with hkind | hkind <;> rw [hkind] <;> rfl
  -- the tokens around the operator are the same, but for the one that is edited
  have hkept := h.keeps.tokens_eq
  rw [hsplit, List.filter_append,
    List.filter_cons_of_pos (by simpa using hself)] at hkept
  obtain ⟨front', rest, hcut, -, hrest⟩ := List.filter_eq_append_iff.mp hkept
  obtain ⟨between, back', rfl, -, -, hback⟩ := List.filter_eq_cons_iff.mp hrest
  have hsplit' : u.document.tokens = (front' ++ between) ++ tok :: back' := by
    rw [hcut, List.append_assoc]
  refine ⟨front' ++ between, tok, back', hsplit', rfl, hkind, fun g hg => ?_⟩
  have hgback : g ∈ back' := (List.takeWhile_sublist _).subset hg
  have hgmem : g ∈ u.document.tokens := by simp [hsplit', hgback]
  by_cases hgz : g.id = z
  · rcases hbreak with hx | hbehind
    · obtain ⟨hmem, -, htext⟩ := h.sound.of_mem_tokens hgmem
      rw [hgz] at hmem htext
      rw [(h.new hmem).2, Option.some.injEq] at htext
      simp [Token.isBreak, ← htext, hx]
    · have hprec :=
        (h.sound.around_of_tokens hsplit').precedes_of_mem_post hgback
      exact absurd (hgz ▸ hprec) hbehind
  · have hin : g ∈ (back'.takeWhile (·.kind.isTrivia)).filter fun tok =>
        !([z].contains tok.id) :=
      List.mem_filter.mpr ⟨hg, by simpa using hgz⟩
    rw [filter_takeWhile, hback, ← filter_takeWhile] at hin
    · exact hgap g (List.mem_filter.mp hin).1
    · exact fun a ha hcode => by simpa using hold a (by simp [hsplit, ha]) hcode
    · exact fun a ha hcode => by
        simpa using hnew a (by simp [hsplit', ha]) hcode

end TreeLint.Standard
