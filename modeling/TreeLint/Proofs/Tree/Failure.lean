import TreeLint.Proofs.Tree.Success

/-!
# What is left of an edit that fails

Every edit that changes the tree in one step looks for reasons to refuse
before it does anything, and so does `replace`: once the new node stands
before the old one, the old one can be detached (`detach_insertBefore`).
Such an edit leaves everything as it was if it fails, up to white space that
was created and could not be attached (`Spared`).

The two moves detach the node first and look at the place where it should go
afterwards. If that place is no good the node stays detached: `Residue`
lists what a failed edit can leave, and `failed_edit_spares_iff` says that
moving a node that has a parent is the only edit that fails halfway.

Specification, §3 and §11.
-/

namespace TreeLint

/-- Moving a node that has a parent. -/
def Op.movesChild (t : Tree) : Op → Bool
  | .moveAfter n _ => (t.parent? n).isSome
  | .moveBefore n _ => (t.parent? n).isSome
  | _ => false

namespace Tree

variable {t u : Tree} {n p a c : NodeId} {i : Nat} {x : String} {e : EditError}

/-- All nodes of `t` are in `u` as they were, and so is the journal; the
only thing that may have been added is white space on its own. -/
structure Spared (t u : Tree) : Prop where
  nodes : ∀ n, n < t.count → SameNode t u n
  journal : u.journal = t.journal
  trace : ∀ n, t.count ≤ n → n < u.count →
    u.kind? n = some .whitespace ∧ u.parent? n = none ∧ u.children n = []

/-- What an edit of `t` can leave if it fails. -/
inductive Residue (t : Tree) : Op → Tree → Prop
  | nothing {op : Op} (hop : op.movesChild t = false) : Residue t op t
  /-- White space was created and could not be attached. -/
  | space {op : Op} {n : NodeId} {x : String} (hop : op = .spaceBefore n x ∨
    op = .spaceAfter n x) :
      Residue t op (t.newToken .whitespace x)
  /-- The node was detached, and there is nothing to attach it to: the
  anchor has no parent, or is the node itself or below it. -/
  | detached {op : Op} {n a p : NodeId} (hop : op = .moveAfter n a ∨
    op = .moveBefore n a)
      (hp : t.parent? n = some p) (ha : t.parent? a = none ∨
        a ∈ t.descendants n) :
      Residue t op (t.detach n).tree

/-! ## Edits in one step -/

theorem insertChild_of_failure (h : t.Sound)
    (hfail : (t.insertChild p i c).failure = some e) :
    (t.insertChild p i c).tree = t := by
  rcases insertChild_cases h p i c with htree | ⟨g, -⟩
  · exact htree
  · rw [(insertChild_succeeds_iff h).mpr g] at hfail
    cases hfail

/-- Attaching next to a node comes down to attaching below its parent. -/
theorem insertion_of_failure (h : t.Sound) {r : Edited}
    (hr : r.tree = t ∨ ∃ p i, r = t.insertChild p i c)
    (hfail : r.failure = some e) : r.tree = t := by
  rcases hr with htree | ⟨p, i, rfl⟩
  · exact htree
  · exact insertChild_of_failure h hfail

theorem detach_of_failure (hfail : (t.detach n).failure = some e) :
    (t.detach n).tree = t := by
  unfold detach at hfail ⊢
  split
  · next hp hi =>
    simp only [hp, hi] at hfail
    cases hfail
  · rfl

theorem replaceText_of_failure (hfail : (t.replaceText n x).failure = some e) :
    (t.replaceText n x).tree = t := by
  unfold replaceText at hfail ⊢
  split
  · next hx =>
    simp only [hx] at hfail
    cases hfail
  · rfl

/-- Filling a gap leaves nothing but the white space it has created. -/
theorem fillGap_of_failure (h : t.Sound) {neighbour : Option NodeId}
    {attach : Tree → NodeId → Edited}
    (hattach : ∀ u c, (attach u c).tree = u ∨ ∃ p i,
      attach u c = u.insertChild p i c)
    (hfail : (t.fillGap neighbour x attach).failure = some e) :
    (t.fillGap neighbour x attach).tree = t ∨
      (t.fillGap neighbour x attach).tree = t.newToken .whitespace x := by
  unfold fillGap at hfail ⊢
  split
  · next hspace =>
    simp only [hspace] at hfail
    split
    · next hx =>
      rw [if_pos hx] at hfail
      exact Or.inl (detach_of_failure hfail)
    · next hx =>
      rw [if_neg hx] at hfail
      exact Or.inl (replaceText_of_failure hfail)
  · next hspace =>
    simp only [hspace] at hfail
    split
    · exact Or.inl rfl
    · next hx =>
      rw [if_neg hx] at hfail
      exact Or.inr (insertion_of_failure (sound_newToken h x)
        (hattach _ _) hfail)

/-! ## Edits in two steps -/

/-- Once a node has another one before it, it can still be detached. -/
theorem detach_insertBefore (h : t.Sound)
    (hok : (t.insertBefore a c).failure = none) :
    ((t.insertBefore a c).tree.detach a).failure = none := by
  obtain ⟨p, i, -, hi, heq⟩ := insertBefore_of_success hok
  rw [heq] at hok ⊢
  obtain ⟨g, htree⟩ := insertChild_eq_graft h hok
  have hu : (t.insertChild p i c).tree.Sound :=
    h.changes (changes_insertChild h p i c)
  have hkids : (t.insertChild p i c).tree.children p =
      (t.graft p i c).children p := by
    rw [htree, children, children, subtree, subtree, record_forest]
  have hmem : a ∈ (t.insertChild p i c).tree.children p := by
    rw [hkids, g.children_parent h, List.append_assoc, List.mem_append,
      List.mem_append, ← or_assoc,
      or_right_comm, ← List.mem_append, List.take_append_drop]
    exact Or.inl (List.mem_of_getElem? hi)
  rw [detach_succeeds_iff_parent hu, hu.parent?_eq_some_iff.mpr hmem]
  rfl

/-- Two edits in a row fail if the first does, or the second after it. -/
theorem andThen_of_failure {r : Edited} {next : Tree → Edited}
    (hfail : (r.andThen next).failure = some e) :
    r.failure = some e ∧ r.andThen next = r ∨
      r.failure = none ∧ (next r.tree).failure = some e ∧
        r.andThen next = next r.tree := by
  unfold Edited.andThen at hfail ⊢
  split
  · next hr =>
    simp only [hr] at hfail
    exact Or.inl ⟨hr.trans hfail, rfl⟩
  · next hr =>
    simp only [hr] at hfail
    exact Or.inr ⟨hr, hfail, rfl⟩

theorem replace_of_failure (h : t.Sound) {old new : NodeId}
    (hfail : (t.replace old new).failure = some e) :
    (t.replace old new).tree = t := by
  rcases andThen_of_failure hfail with ⟨hfirst, heq⟩ | ⟨hfirst, hsecond, -⟩
  · rw [replace, heq]
    exact insertion_of_failure h (insertBefore_cases t old new) hfirst
  · rw [detach_insertBefore h hfirst] at hsecond
    cases hsecond

/-- Whoever is not below a node that is detached keeps its parent. -/
theorem parent?_detach (h : t.Sound) (hok : (t.detach n).failure = none)
    (hp : t.parent? a = some p) (ha : a ∉ t.descendants n) :
    (t.detach n).tree.parent? a = some p ∧
      p ∉ (t.detach n).tree.descendants n := by
  obtain ⟨hu, hin, -, -, hsub⟩ := detached_of_success h hok
  obtain ⟨q, i, hi, hforest, -⟩ := detach_of_success h hok
  have hmem : ∀ m, m ∈ t.descendants n ↔ m = n ∨ n ∈ t.ancestors m :=
    fun m => h.mem_descendants_iff_above (contains_of_childAt h hi).2
  have hout : p ∉ t.descendants n := by
    intro hpn
    refine ha ((hmem a).mpr (Or.inr ?_))
    rw [ancestors_of_parent? h.nodup hp]
    exact ((hmem p).mp hpn).elim (fun heq => heq ▸ List.mem_cons_self)
      (List.mem_cons_of_mem p)
  refine ⟨hu.parent?_eq_some_iff.mpr ?_, ?_⟩
  · have hkids : (t.detach n).tree.children p = (t.cut n).children p := by
      rw [children, children, subtree, subtree, hforest]
    rw [hkids, children_cut_of_not_mem h hi hout]
    have hne : a ≠ n := fun heq => ha ((hmem a).mpr (Or.inl heq))
    exact (List.mem_erase_of_ne hne).mpr (h.parent?_eq_some_iff.mp hp)
  · rw [descendants, hsub]
    exact hout

/-- A move fails and does nothing if the node has no parent, and otherwise
leaves it detached. -/
theorem PutsBeside.residue_move {attach : Tree → Edited} {op : Op}
    (hputs : PutsBeside a n attach) (h : t.Sound)
    (hcases : ∀ u : Tree, (attach u).tree = u ∨ ∃ p i,
      attach u = u.insertChild p i n)
    (hop : op = .moveAfter n a ∨ op = .moveBefore n a)
    (hfail : ((t.detach n).andThen attach).failure = some e) :
    Residue t op ((t.detach n).andThen attach).tree := by
  rcases andThen_of_failure hfail with ⟨hfirst, heq⟩ | ⟨hfirst, hsecond, heq⟩
  · have hstays : (t.parent? n).isSome = false := by
      rw [← Bool.not_eq_true, ← detach_succeeds_iff_parent h, hfirst]
      exact Option.some_ne_none e
    rw [heq, detach_of_failure hfirst]
    refine .nothing ?_
    rcases hop with rfl | rfl
    · exact hstays
    · exact hstays
  · obtain ⟨hu, hin, hnone, hroot, -⟩ := detached_of_success h hfirst
    obtain ⟨q, hq⟩ := Option.isSome_iff_exists.mp
      ((detach_succeeds_iff_parent h).mp hfirst)
    rw [heq, insertion_of_failure hu (hcases _) hsecond]
    refine .detached hop hq ?_
    cases hp : t.parent? a with
    | none => exact Or.inl rfl
    | some p =>
      -- next to a node that keeps its parent there is a place
      refine Or.inr (by_contra fun ha => ?_)
      obtain ⟨hp', hout⟩ := parent?_detach h hfirst hp ha
      rw [(hputs.succeeds_iff hu hin hnone hroot).mpr ⟨p, hp', hout⟩] at hsecond
      cases hsecond

/-! ## All edits -/

/-- Filling a gap that fails leaves at most the new token behind, detached.
-/
theorem residue_fillGap (h : t.Sound) {op : Op} {neighbour : Option NodeId}
    {attach : Tree → NodeId → Edited}
    (hattach : ∀ u c, (attach u c).tree = u ∨ ∃ p i,
      attach u c = u.insertChild p i c)
    (hop : op = .spaceBefore n x ∨ op = .spaceAfter n x)
    (hfail : (t.fillGap neighbour x attach).failure = some e) :
    Residue t op (t.fillGap neighbour x attach).tree := by
  rcases fillGap_of_failure h hattach hfail with htree | htree
  · rw [htree]
    refine .nothing ?_
    rcases hop with rfl | rfl
    · rfl
    · rfl
  · rw [htree]
    exact .space hop

/-- An edit answers that it failed if it did. -/
theorem failure_of_reply {r : Edited} (h : r.reply = .failed e) :
    r.failure = some e := by
  unfold Edited.reply at h
  split at h
  · next hr =>
    cases h
    exact hr
  · cases h

/-- What any operation leaves if it answers that it failed. -/
theorem residue_apply (h : t.Sound) {op : Op}
    (hfail : (op.apply t).2 = .failed e) :
    Residue t op (op.apply t).1 := by
  have same : ∀ r : Edited, op.movesChild t = false → r.tree = t →
      Residue t op r.tree :=
    fun r hop htree => htree.symm ▸ .nothing hop
  -- Most operations check before they touch the tree. The moves and the
  -- spacings, which take two steps, can fail in the second one.
  cases op with
  | newToken | newNode | begin | commit | rollback => cases hfail
  | insertChild p i c =>
    exact same _ rfl (insertChild_of_failure h (failure_of_reply hfail))
  | appendChild p c =>
    exact same _ rfl (insertChild_of_failure h (failure_of_reply hfail))
  | insertBefore a c =>
    exact same _ rfl (insertion_of_failure h (insertBefore_cases t a c)
      (failure_of_reply hfail))
  | insertAfter a c =>
    exact same _ rfl (insertion_of_failure h (insertAfter_cases t a c)
      (failure_of_reply hfail))
  | detach n => exact same _ rfl (detach_of_failure (failure_of_reply hfail))
  | replace old new =>
    exact same _ rfl (replace_of_failure h (failure_of_reply hfail))
  | replaceText n x =>
    exact same _ rfl (replaceText_of_failure (failure_of_reply hfail))
  | moveAfter n a =>
    exact (putsBeside_insertAfter a n).residue_move h
      (fun u => insertAfter_cases u a n) (Or.inl rfl)
      (failure_of_reply hfail)
  | moveBefore n a =>
    exact (putsBeside_insertBefore a n).residue_move h
      (fun u => insertBefore_cases u a n) (Or.inr rfl)
      (failure_of_reply hfail)
  | spaceBefore n x =>
    exact residue_fillGap h (fun u c => insertBefore_cases u n c) (Or.inl rfl)
      (failure_of_reply hfail)
  | spaceAfter n x =>
    exact residue_fillGap h (fun u c => insertAfter_cases u n c) (Or.inr rfl)
      (failure_of_reply hfail)

theorem spared_refl (t : Tree) : Spared t t where
  nodes _ _ := ⟨rfl, rfl, rfl, rfl⟩
  journal := rfl
  trace _ hlo hhi := absurd hhi (Nat.not_lt.mpr hlo)

/-- The new token leaves every other node alone. -/
theorem spared_newToken (h : t.Sound) (x : String) :
    Spared t (t.newToken .whitespace x) where
  nodes n hn := sameNode_of_append (x := .token t.count .whitespace x .nil) rfl
    (h.contains_iff.mpr hn)
  journal := rfl
  trace n hlo hhi := by
    obtain rfl : n = t.count := Nat.le_antisymm (Nat.le_of_lt_succ hhi) hlo
    refine ⟨?_, (newToken_detached h x).2.1, ?_⟩
    · rw [kind?, subtree_newToken h]
      rfl
    · rw [children, subtree_newToken h]
      rfl

/-- A node that was detached is not spared: it has lost its parent. -/
theorem not_spared_detach (h : t.Sound) (hp : t.parent? n = some p) :
    ¬ Spared t (t.detach n).tree := by
  intro hspared
  have hok : (t.detach n).failure = none := by
    rw [detach_succeeds_iff_parent h, hp]
    rfl
  have hsame := (hspared.nodes n (h.parent_mem hp).1).parent
  rw [(detached_of_success h hok).2.2.1, hp] at hsame
  cases hsame

/-- What is left spares everything that was there, unless a child was moved. -/
theorem Residue.spared_iff {op : Op} (hres : Residue t op u) (h : t.Sound) :
    Spared t u ↔ op.movesChild t = false := by
  cases hres with
  | nothing hop => exact iff_of_true (spared_refl t) hop
  | space hop =>
    refine iff_of_true (spared_newToken h _) ?_
    rcases hop with rfl | rfl
    · rfl
    · rfl
  | detached hop hp ha =>
    refine iff_of_false (not_spared_detach h hp) ?_
    rcases hop with rfl | rfl
    · simp [Op.movesChild, hp]
    · simp [Op.movesChild, hp]

/-- **Only moves fail halfway.** An edit that fails, on any tree that can
come about, leaves one of the residues above. It spares everything that was
there exactly if it is not a move of a node that has a parent.
Specification, §3. -/
theorem failed_edit_spares_iff (t : Tree) (ht : t.Reachable) (op : Op)
    (e : EditError) (hfail : (op.apply t).2 = .failed e) :
    Residue t op (op.apply t).1 ∧
      (Spared t (op.apply t).1 ↔ op.movesChild t = false) := by
  have h := ht.consistent.sound
  have hres := residue_apply h hfail
  exact ⟨hres, hres.spared_iff h⟩

/-- White space next to the root of a file: a token is created for it and
stays on its own. -/
theorem failed_edit_spares_beside_root :
    let t := Tree.build .file [.token .identifier "a", .token .identifier "b"]
    let u := ((Op.spaceAfter root " ").apply t).1
    ((Op.spaceAfter root " ").apply t).2 = .failed (.noParent root) ∧
        u.count = t.count + 1 ∧ Spared t u := by
  intro t u
  have hreach : t.Reachable :=
    ⟨.file, [.token .identifier "a", .token .identifier "b"], [], rfl⟩
  have h := failed_edit_spares_iff t hreach (.spaceAfter root " ")
    (.noParent root) (by decide)
  exact ⟨by decide, by decide, h.2.mpr rfl⟩

/-- Not every edit that fails spares what was there: a token that is moved
next to the root of the file is gone from the text, although the move is
refused. -/
theorem refused_move_detaches :
    ¬ ∀ (t : Tree) (op : Op) (e : EditError), t.Reachable →
      (op.apply t).2 = .failed e → Spared t (op.apply t).1 := by
  intro hall
  have hspared :=
    hall (Tree.build .file [.token .identifier "a", .token .identifier "b"])
      (.moveAfter 1 root)
    (.noParent root) ⟨.file, [.token .identifier "a", .token .identifier "b"],
      [], rfl⟩ (by decide)
  have hparent := (hspared.nodes 1 (by decide)).parent
  exact absurd hparent (by decide)

end Tree

end TreeLint
