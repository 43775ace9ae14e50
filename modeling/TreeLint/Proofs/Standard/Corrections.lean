import TreeLint.Proofs.Lint.Upkeep
import TreeLint.Proofs.Rule.Registry
import TreeLint.Proofs.Tree.Document
import TreeLint.Standard.RuleSet

/-!
# What the standard rules correct

All the standard rules do to a tree are corrections, and there are six kinds
of them (`Correction`). Each is made for what the rule saw in the tree it
corrects, however much that tree was changed by the steps before.

What the rules keep of a file is then a matter of these six: a relation
between documents that holds across each of them holds across linting and
formatting (`upkeep_onDocuments`, with `Session.upheld_format`).

Specification, §13.
-/

namespace TreeLint

variable {σ : Type}

/-! ## Operations that succeed -/

/-- Operations, none of which fails. -/
inductive Op.Succeed : List Op → Tree → Tree → Prop
  | nil (t : Tree) : Succeed [] t t
  | cons {op : Op} {ops : List Op} {t u : Tree} (h : ∀ error, (op.apply t).2 ≠
    .failed error)
      (rest : Succeed ops (op.apply t).1 u) : Succeed (op :: ops) t u

namespace Op.Succeed

variable {xs ys : List Op} {t u : Tree}

theorem append (h : Succeed (xs ++ ys) t u) :
    ∃ v, Succeed xs t v ∧ Succeed ys v u := by
  induction xs generalizing t with
  | nil => exact ⟨t, .nil t, h⟩
  | cons x xs ih =>
    cases h with
    | cons hx rest =>
      obtain ⟨v, hxs, hys⟩ := ih rest
      exact ⟨v, .cons hx hxs, hys⟩

theorem eq_run (h : Succeed xs t u) : u = Op.run t xs := by
  induction h with
  | nil => rfl
  | cons _ _ ih => exact ih

theorem consistent (h : Succeed xs t u) (ht : t.Consistent) : u.Consistent := by
  rw [h.eq_run]
  exact ht.run xs

theorem keepsKinds (h : Succeed xs t u) (ht : t.Consistent) :
    t.KeepsKinds u := by
  rw [h.eq_run]
  exact Tree.keepsKinds_run ht xs

end Op.Succeed

theorem Edited.failure_eq_none {e : Edited}
    (h : ∀ error, e.reply ≠ .failed error) : e.failure = none := by
  unfold reply at h
  split at h
  · next error _ => exact absurd rfl (h error)
  · next hnone => exact hnone

/-- A correction that ends well is a list of operations that all succeeded.
-/
theorem Fix.Runs.succeed {memory m : σ} {ops os : List Op} {t u : Tree}
    (hr : (Fix.ofOps memory ops).Runs t os u (.finished m none)) :
    Op.Succeed ops t u := by
  induction ops generalizing t os with
  | nil =>
    cases hr
    exact .nil _
  | cons op ops ih =>
    obtain ⟨rest, -, ⟨error, -, -, -, hend⟩ | ⟨hok, hrest⟩⟩ := hr.ofOps_cons
    · cases hend
    · exact .cons hok (ih hrest)

namespace Standard

/-! ## Corrections -/

/-- A correction of a standard rule, with the message it is reported with. -/
inductive Correction (t : Tree) : String → List Op → Prop
  | blankLine {n : NodeId} (hn : t.isAttached n = true)
      (h : BlankLine.lacksBlankLine t n = true) :
      Correction t "Expected a blank line for this declaration"
        [.spaceBefore n ("\n" ++ t.indent n)]
  | opens {n newline : NodeId} (indentation : Indentation)
      (hn : t.isAttached n = true) (hc : t.inComment n = false)
      (hk : t.kindIs n ChainWrapping.opensLine = true)
      (h : ChainWrapping.breakAfter? t n = some newline) :
      Correction t ("Line must not end with \"" ++ t.text n ++ "\"")
        (ChainWrapping.openLine indentation t n newline)
  | closes {n newline : NodeId} (hn : t.isAttached n = true)
      (hc : t.inComment n = false)
      (hk : t.kindIs n ChainWrapping.closesLine = true)
      (h : ChainWrapping.breakBefore? t n = some newline) :
      Correction t ("Line must not begin with \"" ++ t.text n ++ "\"")
        (ChainWrapping.closeLine t n newline)
  | removed {space : NodeId} (hk : t.hasKind space .whitespace = true) :
      Correction t "Unexpected whitespace" [.detach space]
  | single {space : NodeId} (hk : t.hasKind space .whitespace = true) :
      Correction t "Expected a single space" [.replaceText space " "]
  | missing {token : NodeId}
      (hk : t.hasKind token .colon = true ∨ (t.nextLeaf? token).isSome = true)
      (hnext : (t.nextLeaf? token).filter (fun leaf =>
        t.hasKind leaf .whitespace) = none) :
      Correction t ("Whitespace after '" ++ t.text token ++ "' is missing")
        [.spaceAfter token " "]

/-- A program of edits that makes such a correction. -/
def Corrects (t : Tree) (message : String) (fix : Fix σ) : Prop :=
  ∃ memory ops, fix = Fix.ofOps memory ops ∧ Correction t message ops

namespace Correction

variable {t : Tree} {message : String} {ops : List Op}

/-- Corrections leave transactions alone. -/
theorem checkpoint? (c : Correction t message ops) :
    ∀ op ∈ ops, op.checkpoint? = none := by
  cases c with
  | blankLine | removed | single | missing => simp [Op.checkpoint?]
  | opens =>
    unfold ChainWrapping.openLine
    split <;> simp [Op.checkpoint?]
  | closes =>
    unfold ChainWrapping.closeLine ChainWrapping.moveOperation
      ChainWrapping.moveOperator
    intro op hop
    rcases List.mem_append.mp hop with hop | hop
    · split at hop
      · rcases List.mem_append.mp hop with hop | hop
        · obtain ⟨a, -, rfl⟩ := Option.map_eq_some_iff.mp
            (Option.mem_toList.mp hop)
          rfl
        · rw [List.mem_singleton.mp hop]
          rfl
      · split at hop
        · simp only [List.mem_cons, List.not_mem_nil, or_false] at hop
          rcases hop with rfl | rfl <;> rfl
        · cases hop
    · obtain ⟨a, -, rfl⟩ := Option.map_eq_some_iff.mp (Option.mem_toList.mp hop)
      rfl

/-- What is right before a transaction is opened is right afterwards. -/
theorem begin (c : Correction t message ops) :
    Correction t.begin message ops := by
  cases c with
  | blankLine hn h => exact .blankLine (t := t.begin) hn h
  | opens indentation hn hc hk h =>
    exact .opens (t := t.begin) indentation hn hc hk h
  | closes hn hc hk h => exact .closes (t := t.begin) hn hc hk h
  | removed hk => exact .removed (t := t.begin) hk
  | single hk => exact .single (t := t.begin) hk
  | missing hk hnext => exact .missing (t := t.begin) hk hnext

end Correction

variable {now : Tree → Prop}

theorem correctsBy_correct {offset : Nat} {message : String} {ops : List Op}
    {memory : σ} (h : ∀ t, t.Consistent → now t → Correction t message ops) :
    (Hook.correct offset message ops memory).CorrectsBy Corrects now :=
  ⟨fun t ht hnow => ⟨Fix.keepsToItself_ofOps memory (h t ht hnow).checkpoint? t,
    memory, ops, rfl, h t ht hnow⟩,
    fun _ _ => trivial⟩

/-! ## The rules

Each program of the rules (specification, §13) reports nothing but the six
corrections, each in the situation it is made for. One lemma for each
program, in the order in which they call each other; the kind of what is
corrected is known from what the rule saw before. -/

/-- A blank line is put before declarations that lack one. -/
theorem BlankLine.correctsBy_before (n : NodeId) (memory : σ) :
    (before n memory).CorrectsBy Corrects fun t => t.isAttached n = true := by
  intro t _ hn
  dsimp only
  split
  · next h =>
    refine correctsBy_correct ?_
    rintro _ - rfl
    exact .blankLine hn h
  · trivial

/-- Operators are taken to the next line or to the line before. -/
theorem ChainWrapping.correctsBy_before (indentation : Indentation) (n : NodeId)
    (memory : σ) :
    (before indentation n memory).CorrectsBy Corrects fun t =>
      t.isAttached n = true := by
  intro t _ hn
  dsimp only
  split
  · trivial
  · next hc =>
    rw [Bool.not_eq_true] at hc
    split
    · next hk =>
      split
      · trivial
      · next newline h =>
        refine correctsBy_correct ?_
        rintro _ - rfl
        exact .opens indentation hn hc hk h
    · split
      · next hk =>
        split
        · trivial
        · next newline h =>
          refine correctsBy_correct ?_
          rintro _ - rfl
          exact .closes hn hc hk h
      · trivial

namespace ParameterSpacing

theorem correctsBy_removeSpace {t : Tree} {space : NodeId}
    (hk : t.hasKind space .whitespace = true) (memory : σ) :
    (removeSpace t space memory).CorrectsBy Corrects (· = t) := by
  refine correctsBy_correct ?_
  rintro _ - rfl
  exact .removed hk

theorem correctsBy_makeSingle {t : Tree} {space : NodeId}
    (hk : t.hasKind space .whitespace = true) (memory : σ) :
    (makeSingle t space memory).CorrectsBy Corrects (· = t) := by
  refine correctsBy_correct ?_
  rintro _ - rfl
  exact .single hk

theorem correctsBy_addSpaceAfter {t : Tree} {token : NodeId}
    (hk : t.hasKind token .colon = true ∨ (t.nextLeaf? token).isSome = true)
    (hnext : (t.nextLeaf? token).filter (fun leaf =>
      t.hasKind leaf .whitespace) = none)
    (memory : σ) :
    (addSpaceAfter t token memory).CorrectsBy Corrects (· = t) := by
  refine correctsBy_correct ?_
  rintro _ - rfl
  exact .missing hk hnext

theorem correctsBy_visitModifierSpace {space : NodeId}
    (hk : ∀ t, t.Consistent → now t → t.hasKind space .whitespace = true)
    (memory : σ) :
    (visitModifierSpace space memory).CorrectsBy Corrects now := by
  intro t ht hnow
  dsimp only
  split
  · trivial
  · exact correctsBy_makeSingle (hk t ht hnow) memory

theorem hasKind_of_mem_modifierSpaces {t : Tree} {parameter space : NodeId}
    (h : space ∈ modifierSpaces t parameter) :
    t.hasKind space .whitespace = true := by
  unfold modifierSpaces at h
  split at h
  · cases h
  · rcases List.mem_append.mp h with h | h
    · exact (List.mem_filter.mp h).2
    · exact (Option.filter_eq_some_iff.mp (Option.mem_toList.mp h)).2

theorem correctsBy_visitBeforeColon (colon : NodeId) (memory : σ) :
    (visitBeforeColon colon memory).CorrectsBy Corrects now := by
  intro t _ _
  dsimp only
  split
  · next space hspace =>
      exact correctsBy_removeSpace
        (Option.filter_eq_some_iff.mp hspace).2 memory
  · trivial

theorem correctsBy_visitAfterColon (limit : Option Nat) (parameter : NodeId)
    {colon : NodeId}
    (hk : ∀ t, t.Consistent → now t → t.hasKind colon .colon = true)
    (memory : σ) :
    (visitAfterColon limit parameter colon memory).CorrectsBy Corrects now := by
  intro t ht hnow
  dsimp only
  split
  · next hnext =>
      exact correctsBy_addSpaceAfter (Or.inl (hk t ht hnow)) hnext memory
  · next space hspace =>
    split
    · trivial
    · exact correctsBy_makeSingle (Option.filter_eq_some_iff.mp hspace).2 memory

theorem correctsBy_visitColon (limit : Option Nat) (parameter : NodeId)
    (memory : σ) :
    (visitColon limit parameter memory).CorrectsBy Corrects now := by
  intro t _ _
  dsimp only
  split
  · trivial
  · next colon hcolon =>
    have hk : t.hasKind colon .colon = true :=
      List.find?_some (p := fun c => t.hasKind c .colon) hcolon
    refine (correctsBy_visitBeforeColon colon memory).andThen fun memory => ?_
    exact correctsBy_visitAfterColon limit parameter (fun u hu hlater =>
      hlater.hasKind hu hk) memory

theorem correctsBy_visitParameter (limit : Option Nat) (parameter : NodeId)
    (memory : σ) :
    (visitParameter limit parameter memory).CorrectsBy Corrects now := by
  intro t ht _
  have hspaces : (Hook.each visitModifierSpace (modifierSpaces t parameter)
      memory).CorrectsBy Corrects
      (Later (· = t)) := by
    refine Hook.CorrectsBy.each memory fun space hspace memory => ?_
    have hk := hasKind_of_mem_modifierSpaces hspace
    exact correctsBy_visitModifierSpace (fun u hu hlater =>
      hlater.hasKind hu hk) memory
  refine (hspaces.mono ?_).andThen fun memory =>
    correctsBy_visitColon limit parameter memory
  exact fun u hu hnow => .of_now hu hnow

theorem correctsBy_visitSpace (layout : Layout) (seen : Nat) {space : NodeId}
    (hk : ∀ t, t.Consistent → now t → t.hasKind space .whitespace = true)
    (memory : σ) :
    (visitSpace layout seen space memory).CorrectsBy Corrects now := by
  intro t ht hnow
  have hspace := hk t ht hnow
  dsimp only
  split_ifs
  · exact correctsBy_removeSpace hspace memory
  · exact correctsBy_removeSpace hspace memory
  · trivial
  · exact correctsBy_removeSpace hspace memory
  · exact correctsBy_makeSingle hspace memory
  · trivial

theorem correctsBy_visitComma (comma : NodeId) (memory : σ) :
    (visitComma comma memory).CorrectsBy Corrects now := by
  intro t _ _
  dsimp only
  split
  · next h =>
    cases hnext : t.nextLeaf? comma with
    | none => simp [hnext] at h
    | some next =>
      have hspace : t.hasKind next .whitespace = false := by
        rw [Bool.eq_false_iff]
        intro hspace
        simp [hnext, Tree.kindIs, beq_iff_eq.mp hspace] at h
      exact correctsBy_addSpaceAfter (Or.inr (by simp [hnext]))
        (by simp [hnext, hspace]) memory
  · trivial

/-- The children of a list keep the kinds they had when the list was entered. -/
theorem correctsBy_visitList (limit : Option Nat) (t : Tree) (layout : Layout)
    (seen : Nat) (cs : List NodeId) (memory : σ) :
    (visitList limit t layout seen cs memory).CorrectsBy Corrects
      (Later (· = t)) := by
  induction cs generalizing seen memory with
  | nil => trivial
  | cons c cs ih =>
    have hrest : ∀ seen (memory : σ),
        (visitList limit t layout seen cs memory).CorrectsBy Corrects
            (Later (Later (· = t))) :=
      fun seen memory => (ih seen memory).mono fun u _ hu => hu.later
    simp only [visitList]
    split_ifs with hspace
    · refine (correctsBy_visitSpace layout seen ?_ memory).andThen (hrest seen)
      exact fun u hu hlater => hlater.hasKind hu hspace
    · exact (correctsBy_visitComma c memory).andThen (hrest seen)
    · exact (correctsBy_visitParameter limit c memory).andThen
        (hrest (seen + 1))
    · exact ih seen memory

theorem correctsBy_before (limit : Option Nat) (n : NodeId) (memory : σ) :
    (before limit n memory).CorrectsBy Corrects now := by
  intro t ht _
  dsimp only
  split
  · exact (correctsBy_visitList limit t _ 0 _ memory).mono fun u hu hnow =>
      .of_now hu hnow
  · trivial

end ParameterSpacing

theorem correctsBy_ofVisitor {info : RuleInfo}
    {visitor : SettingsView → Visitor σ}
    (h : ∀ view, (visitor view).CorrectsBy Corrects) :
    (Provider.ofVisitor info visitor).CorrectsBy Corrects := by
  intro number inst view v hmade hbound
  cases hmade
  cases hbound
  exact h view

/-- **The standard rules** change a tree only by corrections of these kinds. -/
theorem correctsBy_providers [Inhabited σ] :
    ∀ p ∈ providers (σ := σ), p.CorrectsBy Corrects := by
  simp only [providers, List.forall_mem_cons, List.not_mem_nil, false_implies,
    implies_true, and_true]
  refine ⟨correctsBy_ofVisitor fun _ => ?_, correctsBy_ofVisitor fun view => ?_,
    correctsBy_ofVisitor fun view => ?_⟩
  · exact ⟨BlankLine.correctsBy_before, fun _ _ => trivial, fun _ => trivial⟩
  · exact ⟨ChainWrapping.correctsBy_before _, fun _ _ => trivial,
      fun _ => trivial⟩
  · exact ⟨fun n memory => ParameterSpacing.correctsBy_before _ n memory,
      fun _ _ => trivial, fun _ => trivial⟩

end Standard

/-! ## Relations between documents -/

namespace Standard

/-- A relation between the documents of two trees, both of which have one. -/
def OnDocuments (Q : Forest → Forest → Prop) (t u : Tree) : Prop :=
  t.contains Tree.root = true → u.contains Tree.root = true ∧
    Q t.document u.document

theorem onDocuments_of_sound {Q : Forest → Forest → Prop} {t u : Tree}
    (hu : u.Sound) (h : Q t.document u.document) : OnDocuments Q t u :=
  fun _ => ⟨Tree.contains_iff_mem.mpr (Forest.mem_ids_of_mem_roots hu.root_mem),
    h⟩

/-- What every correction with a safe message keeps of the document is kept
up. -/
theorem upkeep_onDocuments {safe : String → Prop} {Q : Forest → Forest → Prop}
    (hrefl : ∀ f, Q f f) (htrans : ∀ {f g h}, Q f g → Q g h → Q f h)
    (hstep : ∀ {t u message ops}, t.Consistent → Correction t message ops →
      safe message → Op.Succeed ops t u → Q t.document u.document) :
    Upkeep (Corrects (σ := σ)) safe (OnDocuments Q) where
  trans htu huv hroot := by
    obtain ⟨hroot', hQ⟩ := htu hroot
    obtain ⟨hroot'', hQ'⟩ := huv hroot'
    exact ⟨hroot'', htrans hQ hQ'⟩
  still := by
    intro t u fresh hforest _ _ hroot
    obtain ⟨s, hs⟩ := Forest.exists_subtree (Tree.contains_iff_mem.mp hroot)
    have hs' : u.forest.subtree? Tree.root = some s := by
      rw [hforest, Forest.subtree?_append, hs]; rfl
    refine ⟨Tree.contains_iff_mem.mpr (Forest.mem_of_subtree? hs'), ?_⟩
    rw [Tree.document, Tree.document, Tree.subtree_of_subtree? hs,
      Tree.subtree_of_subtree? hs']
    exact hrefl s
  closed _ h := h
  corrected := by
    rintro t message _ _ u m ht ⟨memory, ops, rfl, c⟩ hsafe hr
    have hu : u.Consistent := by
      rw [hr.tree_eq]
      exact ht.begin.run _
    have hQ : Q t.begin.document u.document :=
      hstep ht.begin c.begin hsafe hr.succeed
    exact onDocuments_of_sound (hu.close _).sound hQ

/-- **Formatting with the standard rules** keeps up what their corrections
keep of the document, if all messages are safe, or at least those of the
violations that were corrected. -/
theorem upheld_format [Inhabited σ] {safe : String → Prop}
    {Q : Forest → Forest → Prop}
    (up : Upkeep (Corrects (σ := σ)) safe (OnDocuments Q)) {w w' : Session σ}
    {fuel : Nat} {policy : Policy} {s : Settings}
    {r : Except EngineError Formatted}
    (hreg : Registry.ofProviders w.engine.registry.id providers =
      .ok w.engine.registry)
    (ht : w.tree.Reachable) (h : w.format fuel policy s = some (w', r))
    (hsafe : (∀ m, safe m) ∨ ∃ f, r = .ok f ∧ AllSafe safe f.violations) :
    Q w.tree.document w'.tree.document := by
  have hcorrects : ∀ id p, w.engine.registry.find? id = some p →
      p.CorrectsBy Corrects :=
    fun id p hp => correctsBy_providers p (Registry.mem_of_find? hreg hp)
  have hroot := Tree.contains_iff_mem.mpr
    (Forest.mem_ids_of_mem_roots ht.consistent.sound.root_mem)
  obtain ⟨hall, hreport⟩ := Session.upheld_format up hcorrects ht.consistent h
  rcases hsafe with hsafe | ⟨f, hf, hsafe⟩
  · exact (hall hsafe hroot).2
  · obtain ⟨tally, rfl, hrel⟩ := hreport f hf
    exact (hrel (hsafe.of_subset (List.subset_append_left _ _)) hroot).2

end Standard

/-- A file given to an engine that knows the standard rules. -/
def Session.standard (t : Tree) : Session Unit :=
  { engine := { registry := ⟨0, Standard.providers.map fun p => (p.id, p)⟩ },
    tree := t }

theorem Session.ofProviders_standard (t : Tree) :
    Registry.ofProviders 0 Standard.providers =
      .ok (Session.standard t).engine.registry :=
  rfl

end TreeLint
