import Mathlib.Logic.Function.Iterate
import TreeLint.Proofs.Tree.Focus

/-!
# From leaf to leaf

The leaf after a node can be found by going from node to node: look into the
next sibling, go on from there if it has no leaf, and go up where there are
no more siblings (`LeafSearch`). The way down to a node lists what stands
around it layer by layer, so the search follows it: siblings in the
innermost layer one after the other, then the next layer. It comes to an end
with the first leaf of what follows in pre-order (`Shows.search_next`,
`Shows.search_prev`), and the leaves of a file, each after the one before,
are all its leaves (`leaf_navigation`).

Specification, §3.
-/

namespace TreeLint

open Forest (Context Layer)
open Forest.Context

/-! ## Tokens around a place -/

namespace Forest

theorem leftTokens_eq_filterMap (C : Context) :
    C.leftTokens = C.left.filterMap fun l =>
      l.2.2.map (Token.mk l.1 l.2.1) := by
  induction C with
  | nil => rfl
  | cons l C ih => simp [leftTokens, left, ih, tokens_eq_filterMap]

theorem rightTokens_eq_filterMap (C : Context) :
    C.rightTokens = C.right.filterMap fun l =>
      l.2.2.map (Token.mk l.1 l.2.1) := by
  induction C with
  | nil => rfl
  | cons l C ih => simp [rightTokens, right, ih, tokens_eq_filterMap]

end Forest

namespace Tree

variable {t : Tree} {C : Context} {l : Layer} {s : Forest} {n a b : NodeId}

/-- The leaves among some nodes of the document are the tokens among them. -/
theorem Sound.filter_isLeaf (h : t.Sound)
    {labels : List (NodeId × Kind × Option String)}
    (hlabels : labels ⊆ t.document.labels) :
    (labels.map Prod.fst).filter t.isLeaf =
      (labels.filterMap fun l => l.2.2.map (Token.mk l.1 l.2.1)).map
        Token.id := by
  induction labels with
  | nil => rfl
  | cons l labels ih =>
    obtain ⟨m, k, y⟩ := l
    obtain ⟨hl, hrest⟩ := List.cons_subset.mp hlabels
    have hleaf : t.isLeaf m = y.isSome := by
      rw [isLeaf, (h.mem_labels_document_iff.mp hl).2.2]
    cases y <;> simp [hleaf, ih hrest]

/-- The leaves of the file are those of its descendants that are leaves. -/
theorem Sound.leaves_root (h : t.Sound) :
    t.leaves root = (t.descendants root).filter t.isLeaf := by
  show t.document.tokens.map Token.id = t.document.ids.filter t.isLeaf
  rw [← Forest.map_fst_labels, h.filter_isLeaf (List.Subset.refl _),
    Forest.tokens_eq_filterMap]

/-! ## Going from node to node -/

/-- A search for a leaf from a node on. The sibling next to the node is
looked into; if it has no leaf the search goes on from there. From the last
sibling the search goes on at the parent, and at the top it ends. -/
inductive LeafSearch (parent? sibling? leaf? : NodeId → Option NodeId) :
    NodeId → Option NodeId → Prop
  | found {n s leaf : NodeId} (hs : sibling? n = some s) (hleaf : leaf? s =
    some leaf) :
      LeafSearch parent? sibling? leaf? n (some leaf)
  | leafless {n s : NodeId} {r : Option NodeId} (hs : sibling? n = some s)
      (hleaf : leaf? s = none) (h : LeafSearch parent? sibling? leaf? s r) :
      LeafSearch parent? sibling? leaf? n r
  | up {n p : NodeId} {r : Option NodeId} (hs : sibling? n = none)
      (hp : parent? n = some p) (h : LeafSearch parent? sibling? leaf? p r) :
      LeafSearch parent? sibling? leaf? n r
  | top {n : NodeId} (hs : sibling? n = none) (hp : parent? n = none) :
    LeafSearch parent? sibling? leaf? n none

/-- The search has at most one outcome, so what it is defined by decides it.
-/
theorem LeafSearch.unique {parent? sibling? leaf? : NodeId → Option NodeId}
    {r r' : Option NodeId} (h : LeafSearch parent? sibling? leaf? n r)
    (h' : LeafSearch parent? sibling? leaf? n r') : r = r' := by
  -- By induction on one search: the other must take the same turn at every
  -- node.
  induction h generalizing r' with
  | found hs hleaf => cases h' <;> simp_all
  | leafless hs hleaf _ ih =>
    cases h' with
    | leafless hs' _ h' => exact ih (Option.some.inj (hs.symm.trans hs') ▸ h')
    | _ => simp_all
  | up hs hp _ ih =>
    cases h' with
    | up _ hp' h' => exact ih (Option.some.inj (hp.symm.trans hp') ▸ h')
    | _ => simp_all
  | top hs hp => cases h' <;> simp_all

namespace Shows

/-- At the top there are no siblings and there is no parent. -/
theorem top (h : t.Shows (fill [] s)) (hs : s.roots = [n]) :
    t.parent? n = none ∧ t.nextSibling? n = none ∧ t.prevSibling? n = none := by
  have hroot : n = root := by
    have hroots : t.document.roots = [root] :=
      Forest.roots_subtree? h.sound.subtree?_root
    rw [h.document, show fill [] s = s from rfl, hs] at hroots
    exact List.singleton_inj.mp hroots
  have hp : t.parent? n = none := hroot ▸ h.sound.linked.root_parentless
  simp [nextSibling?, prevSibling?, siblingsAfter, siblingsBefore, siblings, hp]

theorem leaves_eq (h : t.Shows (fill C s)) (hs : s.roots = [n]) :
    t.leaves n = s.tokens.map Token.id := by
  rw [leaves, h.subtree_eq (Forest.subtree?_of_roots_eq hs)]

/-- The search for the next leaf goes through the siblings behind, and on
with the layers outside. -/
theorem search_next (h : t.Shows (fill C s)) (hs : s.roots = [n]) :
    LeafSearch t.parent? t.nextSibling? t.firstLeaf? n
      (C.rightTokens.head?.map Token.id) := by
  induction C generalizing s n with
  | nil =>
    obtain ⟨hp, hnext, -⟩ := h.top hs
    exact .top hnext hp
  | cons l C ih =>
    obtain ⟨i, k, before, after⟩ := l
    induction hroots : after.roots generalizing s n before after with
    | nil =>
      have hsiblings := (h.sound.siblings_of_children (h.siblings_eq hs)).2
      have hnil : after.tokens = [] := by
        cases after with
        | nil => rfl
        | token => cases hroots
        | node => cases hroots
      refine .up (by simp [nextSibling?, hsiblings, hroots])
        (h.parent?_eq hs) ?_
      simpa [rightTokens, hnil]
        using ih (s := .node i k (before.append (s.append after)) .nil) h rfl
    | cons m ms ihs =>
      have hsiblings := (h.sound.siblings_of_children (h.siblings_eq hs)).2
      obtain ⟨x, rest, rfl, hx, hrest⟩ :=
        Forest.exists_append_of_roots (show after.roots = [m] ++ ms from hroots)
      have hnext : t.nextSibling? n = some m := by
        simp [nextSibling?, hsiblings, hx]
      -- the same document, seen from the sibling
      have hm : t.Shows (fill (⟨i, k, before.append s, rest⟩ :: C) x) := by
        simpa only [fill, Forest.append_assoc] using h
      have hleaf : t.firstLeaf? m = x.tokens.head?.map Token.id := by
        rw [firstLeaf?, hm.leaves_eq hx, List.head?_map]
      cases htokens : x.tokens with
      | nil =>
        have hgo := ihs hx _ _ hm hrest
        refine .leafless hnext (by simp [hleaf, htokens]) ?_
        simpa [rightTokens, Forest.tokens_append, htokens] using hgo
      | cons tok toks =>
        have hfirst : (rightTokens (⟨i, k, before, x.append rest⟩ :: C)).head? =
            some tok := by
          simp [rightTokens, Forest.tokens_append, htokens]
        rw [hfirst]
        exact .found hnext (by simp [hleaf, htokens])

/-- The search for the leaf before goes through the siblings in front, the
nearest first. -/
theorem search_prev (h : t.Shows (fill C s)) (hs : s.roots = [n]) :
    LeafSearch t.parent? t.prevSibling? t.lastLeaf? n
      (C.leftTokens.getLast?.map Token.id) := by
  -- By induction on the layers above, and in each layer on the siblings
  -- still to be tried, nearest first.
  induction C generalizing s n with
  | nil =>
    obtain ⟨hp, -, hprev⟩ := h.top hs
    exact .top hprev hp
  | cons l C ih =>
    obtain ⟨i, k, before, after⟩ := l
    induction hroots : before.roots.reverse generalizing s n before after with
    | nil =>
      have hsiblings := (h.sound.siblings_of_children (h.siblings_eq hs)).1
      have hnil : before.tokens = [] := by
        cases before with
        | nil => rfl
        | token => simp [Forest.roots] at hroots
        | node => simp [Forest.roots] at hroots
      refine .up (by simp [prevSibling?, hsiblings, hroots])
        (h.parent?_eq hs) ?_
      simpa [leftTokens, hnil]
        using ih (s := .node i k (before.append (s.append after)) .nil) h rfl
    | cons m ms ihs =>
      have hsiblings := (h.sound.siblings_of_children (h.siblings_eq hs)).1
      have hprev : t.prevSibling? n = some m := by
        simp [prevSibling?, hsiblings, hroots]
      have hsplit : before.roots = ms.reverse ++ [m] := by
        simpa using congrArg List.reverse hroots
      obtain ⟨rest, x, rfl, hrest, hx⟩ := Forest.exists_append_of_roots hsplit
      have hm : t.Shows (fill (⟨i, k, rest, s.append after⟩ :: C) x) := by
        simpa only [fill, Forest.append_assoc] using h
      have hleaf : t.lastLeaf? m = x.tokens.getLast?.map Token.id := by
        rw [lastLeaf?, hm.leaves_eq hx, List.getLast?_map]
      rcases List.eq_nil_or_concat' x.tokens with htokens | ⟨toks, tok, htokens⟩
      · have hgo := ihs hx _ _ hm (by simp [hrest])
        refine .leafless hprev (by simp [hleaf, htokens]) ?_
        simpa [leftTokens, Forest.tokens_append, htokens] using hgo
      · have hlast : (leftTokens (⟨i, k, rest.append x, after⟩ :: C)).getLast? =
            some tok := by
          simp [leftTokens, Forest.tokens_append, htokens]
        rw [hlast]
        exact .found hprev (by simp [hleaf, htokens])

/-! ## Pre-order -/

/-- **The next token is the first one in pre-order behind the node.** -/
theorem nextLeaf?_eq_find (h : t.Shows (fill C s)) (hs : s.roots = [n]) :
    t.nextLeaf? n = C.rightIds.find? t.isLeaf := by
  have hsub : C.right ⊆ t.document.labels := by
    rw [h.document, Forest.labels_fill]
    exact List.subset_append_right _ _
  rw [nextLeaf?, (h.sound.tokens_of_around (h.around hs)).2,
    ← List.head?_filter, rightIds, h.sound.filter_isLeaf hsub,
    Forest.rightTokens_eq_filterMap, List.head?_map]

/-- **The one before is the last in pre-order in front of it.** -/
theorem prevLeaf?_eq_find (h : t.Shows (fill C s)) (hs : s.roots = [n]) :
    t.prevLeaf? n = C.leftIds.reverse.find? t.isLeaf := by
  have hsub : C.left ⊆ t.document.labels := by
    rw [h.document, Forest.labels_fill, List.append_assoc]
    exact List.subset_append_left _ _
  rw [prevLeaf?, (h.sound.tokens_of_around (h.around hs)).1,
    ← List.head?_filter, List.filter_reverse, leftIds,
    h.sound.filter_isLeaf hsub, Forest.leftTokens_eq_filterMap,
      List.head?_reverse, List.head?_reverse,
    List.getLast?_map]

end Shows

namespace Sound

/-! ## One leaf after the other -/

/-- An attached token splits the list of tokens. -/
theorem exists_token (h : t.Sound) (hn : t.isAttached n = true)
    (hleaf : t.isLeaf n = true) :
    ∃ front tok back, t.document.tokens = front ++ tok :: back ∧
      tok.id = n := by
  obtain ⟨k, y, -, -, hsub⟩ :=
    document_subtree_of_token h (h.mem_document_iff.mpr hn) hleaf
  have htok : (⟨n, k, y⟩ : Token) ∈ t.document.tokens :=
    (Forest.mem_tokens_iff h.nodup_document).mpr hsub
  obtain ⟨front, back, hsplit⟩ := List.append_of_mem htok
  exact ⟨front, _, back, hsplit, rfl⟩

/-- The leaves on either side of a token. -/
theorem leaves_of_tokens (h : t.Sound) {front back : List Token} {tok : Token}
    (hl : t.document.tokens = front ++ tok :: back) :
    t.nextLeaf? tok.id = back.head?.map Token.id ∧
      t.prevLeaf? tok.id = front.getLast?.map Token.id := by
  obtain ⟨hbefore, hafter⟩ := h.tokens_of_around (h.around_of_tokens hl)
  rw [nextLeaf?, prevLeaf?, hbefore, hafter, List.head?_reverse]
  exact ⟨rfl, rfl⟩

/-- **Next and previous are inverse to each other** on the tokens of a
document. -/
theorem nextLeaf?_eq_iff (h : t.Sound) (ha : t.isAttached a = true)
    (hleaf : t.isLeaf a = true) (hb : t.isAttached b = true)
    (hleaf' : t.isLeaf b = true) :
    t.nextLeaf? a = some b ↔ t.prevLeaf? b = some a := by
  constructor
  · intro hnext
    obtain ⟨front, tok, back, hsplit, rfl⟩ := h.exists_token ha hleaf
    rw [(h.leaves_of_tokens hsplit).1] at hnext
    obtain ⟨next, hhead, rfl⟩ := Option.map_eq_some_iff.mp hnext
    obtain ⟨back, rfl⟩ := List.head?_eq_some_iff.mp hhead
    rw [List.append_cons] at hsplit
    simp [(h.leaves_of_tokens hsplit).2]
  · intro hprev
    obtain ⟨front, tok, back, hsplit, rfl⟩ := h.exists_token hb hleaf'
    rw [(h.leaves_of_tokens hsplit).2] at hprev
    obtain ⟨prev, hlast, rfl⟩ := Option.map_eq_some_iff.mp hprev
    obtain ⟨front, rfl⟩ := List.getLast?_eq_some_iff.mp hlast
    rw [← List.append_cons] at hsplit
    simp [(h.leaves_of_tokens hsplit).1]

/-- After so many steps from the first leaf comes the leaf at that place. -/
theorem iterate_nextLeaf? (h : t.Sound) (i : Nat) :
    (fun leaf => leaf.bind t.nextLeaf?)^[i] (t.firstLeaf? root) =
      (t.leaves root)[i]? := by
  induction i with
  | zero => simp [firstLeaf?, List.head?_eq_getElem?]
  | succ i ih =>
    rw [Function.iterate_succ_apply', ih]
    show (t.document.tokens.map Token.id)[i]?.bind t.nextLeaf? =
      (t.document.tokens.map Token.id)[i + 1]?
    rw [List.getElem?_map, List.getElem?_map]
    cases htok : t.document.tokens[i]? with
    | none =>
      have hlength := List.getElem?_eq_none_iff.mp htok
      rw [List.getElem?_eq_none (by omega)]
      rfl
    | some tok =>
      obtain ⟨hi, rfl⟩ := List.getElem?_eq_some_iff.mp htok
      have hsplit : t.document.tokens =
          t.document.tokens.take i ++ t.document.tokens[i] ::
              t.document.tokens.drop (i + 1) := by
        rw [← List.drop_eq_getElem_cons hi, List.take_append_drop]
      rw [Option.map_some, Option.bind_some, (h.leaves_of_tokens hsplit).1,
        List.head?_drop]

end Sound

end Tree

open TreeLint.Tree (root LeafSearch)

/-- **Going from leaf to leaf is going through the document.** From every
attached node of a tree, the search for the next leaf and the one for the
leaf before come to an end. They find the first leaf that comes after all
descendants of the node in pre-order, and the last leaf that comes before
the node. On attached leaves each undoes the other. The leaves of the file
are its descendants that are leaves, each of them once, and going from the
first one on to the next leaf gives them one after the other. Specification,
§3. -/
theorem leaf_navigation {t : Tree} (h : t.Reachable) :
    (∀ n, t.isAttached n = true →
      (∀ r, LeafSearch t.parent? t.nextSibling? t.firstLeaf? n r ↔
        r = t.nextLeaf? n) ∧
      (∀ r, LeafSearch t.parent? t.prevSibling? t.lastLeaf? n r ↔
        r = t.prevLeaf? n) ∧
      ∃ before after, t.descendants root = before ++ t.descendants n ++ after ∧
        t.nextLeaf? n = after.find? t.isLeaf ∧
          t.prevLeaf? n = before.reverse.find? t.isLeaf) ∧
    (∀ a b, t.isAttached a = true → t.isLeaf a = true → t.isAttached b = true →
      t.isLeaf b = true →
      (t.nextLeaf? a = some b ↔ t.prevLeaf? b = some a)) ∧
    t.leaves root = (t.descendants root).filter t.isLeaf ∧
      (t.leaves root).Nodup ∧
    ∀ i, (fun leaf => leaf.bind t.nextLeaf?)^[i] (t.firstLeaf? root) =
      (t.leaves root)[i]? := by
  have hs := h.consistent.sound
  refine ⟨fun n hn => ?_, fun a b ha hleaf hb hleaf' =>
    hs.nextLeaf?_eq_iff ha hleaf hb hleaf', hs.leaves_root,
    Forest.nodup_tokens hs.nodup_document, hs.iterate_nextLeaf?⟩
  have hsub := hs.subtree?_document (hs.mem_document_iff.mpr hn)
  have hroots : (t.subtree n).roots = [n] := Forest.roots_subtree? hsub
  obtain ⟨C, hC⟩ := Forest.exists_fill
    (Forest.roots_subtree? hs.subtree?_root) hsub
  have hshows : t.Shows (fill C (t.subtree n)) := ⟨h.consistent, hC⟩
  obtain ⟨hbefore, hafter⟩ := hs.tokens_of_around (hshows.around hroots)
  have hnext : t.nextLeaf? n = C.rightTokens.head?.map Token.id := by
    rw [Tree.nextLeaf?, hafter]
  have hprev : t.prevLeaf? n = C.leftTokens.getLast?.map Token.id := by
    rw [Tree.prevLeaf?, hbefore, List.head?_reverse]
  refine ⟨fun r => ⟨fun hr => ?_, ?_⟩, fun r => ⟨fun hr => ?_, ?_⟩, C.leftIds,
    C.rightIds, ?_,
    hshows.nextLeaf?_eq_find hroots, hshows.prevLeaf?_eq_find hroots⟩
  · exact hnext ▸ hr.unique (hshows.search_next hroots)
  · rintro rfl
    exact hnext ▸ hshows.search_next hroots
  · exact hprev ▸ hr.unique (hshows.search_prev hroots)
  · rintro rfl
    exact hprev ▸ hshows.search_prev hroots
  · show t.document.ids = C.leftIds ++ (t.subtree n).ids ++ C.rightIds
    rw [hC, Forest.ids_fill]

/-- Between two tokens there are composite nodes without any leaf, one
inside the other and one behind it. -/
theorem leaf_navigation_past_empty_nodes :
    let t := Tree.build .file
      [.start .block, .finish, .token .identifier "a", .start .block,
        .start .block, .finish, .finish, .start .block,
        .finish, .token .identifier "b", .start .block, .finish]
    t.descendants root = [0, 1, 2, 3, 4, 5, 6, 7] ∧ t.leaves root = [2, 6] ∧
      LeafSearch t.parent? t.nextSibling? t.firstLeaf? 2 (some 6) ∧
      LeafSearch t.parent? t.prevSibling? t.lastLeaf? 6 (some 2) ∧
      (t.nextLeaf? 2 = some 6 ↔ t.prevLeaf? 6 = some 2) := by
  intro t
  have hreach : t.Reachable := ⟨_, _, [], rfl⟩
  obtain ⟨hsearch, hinverse, -⟩ := leaf_navigation hreach
  exact ⟨by decide, by decide, ((hsearch 2 (by decide)).1 _).mpr (by decide),
    ((hsearch 6 (by decide)).2.1 _).mpr (by decide),
      hinverse 2 6 (by decide) (by decide) (by decide) (by decide)⟩

end TreeLint
