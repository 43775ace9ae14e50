import TreeLint.Proofs.Forest.Order
import TreeLint.Proofs.Lint.Trail
import Mathlib.Data.List.Find

/-!
# Walks along a route

Rules may put nodes into the tree while it is walked. If what they put in
always stands before the node they are called for, the walk does not come
across it: it goes through the nodes that it would have visited anyway, in
pre-order, and ends (`Guide.ends`).

Where the walk goes is given as a forest, its route. What a proof has to
show is what holds while the nodes of the route are begun one after the
other (`Guide`): the children of a node that was begun are those of the
route, and any others stand before a child that was begun, too (`OnRoute`).

The walk is that of the specification, §4.3.
-/

namespace TreeLint

variable {σ : Type} {policy : Policy} {route : Forest} {seen : List NodeId}
  {n i c : NodeId} {w v : Walk σ}

/-- The nodes in `seen` were begun. Their children are those on the route,
in order, and strays; and strays stand before a child that was begun. -/
structure OnRoute (route : Forest) (seen : List NodeId) (t : Tree) : Prop where
  sound : t.Sound
  attached : ∀ n ∈ seen, n ∈ t.document.ids
  listed : ∀ n ∈ seen, (t.children n).filter (· ∈ route.ids) =
    (route.offspring n).roots
  strays : ∀ n ∈ seen, ∀ c ∈ t.children n, c ∉ route.ids →
    ∃ d ∈ seen, d ∈ t.children n ∧
      (t.children n).idxOf c < (t.children n).idxOf d

/-- What holds of a walk along a route: it is kept when the next node is
begun and when a node is left. -/
structure Guide (policy : Policy) (route : Forest)
    (inv : List NodeId → Walk σ → Prop) : Prop where
  onRoute : ∀ {seen w}, inv seen w → OnRoute route seen w.tree
  before : ∀ {seen n w}, inv seen w → seen ++ [n] <+: route.ids →
    inv (seen ++ [n]) (w.dispatch policy .beforeChildren n)
  after : ∀ {seen n w}, inv seen w → n ∈ seen →
    inv seen (w.dispatch policy .afterChildren n)

/-! ## The next child -/

/-- The first child on the route that was not passed is next, if all strays
were passed. -/
theorem Progress.next?_of_filter {p : Progress}
    {children done rest : List NodeId} {keep : NodeId → Bool}
    (hfilter : children.filter keep = done ++ i :: rest)
    (hstrays : ∀ c ∈ children, keep c = false → p.passed c = true)
    (hdone : ∀ c ∈ done, p.passed c = true) (hi : p.passed i = false) :
    p.next? children = some i := by
  have hkept : children.find? (fun c => !p.passed c) =
      (children.filter keep).find? fun c => !p.passed c := by
    rw [List.find?_filter]
    refine List.find?_congr fun c hc => ?_
    cases hkeep : keep c with
    | true => simp
    | false => simp [hstrays c hc hkeep]
  have hnone : done.find? (fun c => !p.passed c) = none := by
    rw [List.find?_eq_none]
    intro c hc
    simp [hdone c hc]
  rw [Progress.next?, hkept, hfilter, List.find?_append, hnone, Option.none_or,
    List.find?_cons_of_pos (by simp [hi])]

theorem Progress.next?_eq_none {p : Progress} {children : List NodeId}
    (h : ∀ c ∈ children, p.passed c = true) :
    p.next? children = none := by
  rw [Progress.next?, List.find?_eq_none]
  intro c hc
  simp [h c hc]

namespace OnRoute

variable {t u : Tree}

theorem isAttached (h : OnRoute route seen t) (hn : n ∈ seen) :
    t.isAttached n = true :=
  h.sound.mem_document_iff.mp (h.attached n hn)

theorem mem_children_iff (h : OnRoute route seen t) (hn : n ∈ seen)
    (hc : c ∈ route.ids) :
    c ∈ t.children n ↔ c ∈ (route.offspring n).roots := by
  rw [← h.listed n hn, List.mem_filter]
  simp [hc]

/-- Children on the route come in the order of the route. -/
theorem idxOf_lt (h : OnRoute route seen t) (hn : n ∈ seen) {d : NodeId}
    (hroots : [d, i].Sublist (route.offspring n).roots) :
    (t.children n).idxOf d < (t.children n).idxOf i := by
  rw [← h.listed n hn] at hroots
  exact ((pair_sublist_iff (h.sound.nodup_children n)).mp
    (hroots.trans List.filter_sublist)).2

/-- When a node is begun, all its children are on the route: none of them
was begun. -/
theorem children_mem (h : OnRoute route seen t) (hn : n ∈ seen)
    (hsub : seen ⊆ route.ids)
    (hfresh : ∀ d ∈ (route.offspring n).roots, d ∉ seen)
    (hc : c ∈ t.children n) : c ∈ route.ids := by
  by_contra hout
  obtain ⟨d, hd, hdkid, -⟩ := h.strays n hn c hc hout
  exact hfresh d ((h.mem_children_iff hn (hsub hd)).mp hdkid) hd

end OnRoute

/-! ## Loops -/

namespace Guide

variable {inv : List NodeId → Walk σ → Prop}

/-- How far the loop over the children of `n` has got on the route: it has
passed strays and the children in `done`, and none of those in `todo`. -/
structure Abreast (route : Forest) (n : NodeId) (done todo : Forest) (t : Tree)
    (p : Progress) : Prop where
  split : route.offspring n = done.append todo
  strays : ∀ c ∈ t.children n, c ∉ route.ids → p.passed c = true
  done : ∀ c ∈ done.roots, p.passed c = true
  todo : ∀ c ∈ todo.roots, p.passed c = false

/-- The loop over the children in `todo` visits their trees and ends. -/
def LoopEnds (policy : Policy) (route : Forest)
    (inv : List NodeId → Walk σ → Prop) (todo : Forest) : Prop :=
  ∀ n p (w : Walk σ) done seen, inv seen w → n ∈ seen →
    seen ++ todo.ids <+: route.ids →
    Abreast route n done todo w.tree p →
    ∃ w' p', Walk.EndsBelow policy n p w w' p' todo.ids ∧
      inv (seen ++ todo.ids) w'

/-- A route that is done needs nothing more. -/
theorem loopEnds_nil (g : Guide policy route inv) :
    LoopEnds policy route inv .nil := by
  intro n p w done seen hw hn _ h
  have hroute := g.onRoute hw
  refine ⟨w, p, .done (hroute.isAttached hn) (Progress.next?_eq_none fun c hc =>
    ?_), by simpa [Forest.ids] using hw⟩
  by_cases hin : c ∈ route.ids
  · have hroot := (hroute.mem_children_iff hn hin).mp hc
    rw [h.split, Forest.append_nil] at hroot
    exact h.done c hroot
  · exact h.strays c hc hin

/-- The visit of a node of the route, given that the loop over its children
ends. -/
theorem visit_ends (g : Guide policy route inv) (hnodup : route.ids.Nodup)
    {below : Forest} (hbelow : LoopEnds policy route inv below)
    (hi : route.offspring i = below) (hw : inv seen w)
    (hseen : seen ++ i :: below.ids <+: route.ids) :
    ∃ w', Walk.Ends policy i w w' (i :: below.ids) ∧
      inv (seen ++ i :: below.ids) w' := by
  have hsplit : seen ++ i :: below.ids = (seen ++ [i]) ++ below.ids := by simp
  have hbegun : seen ++ [i] <+: route.ids :=
    List.IsPrefix.trans ⟨below.ids, hsplit.symm⟩ hseen
  have hself : i ∈ seen ++ [i] := by simp
  have hbefore := g.before hw hbegun
  have hfresh : ∀ d ∈ below.roots, d ∉ seen ++ [i] := by
    have hdisjoint := hnodup.sublist (hsplit ▸ hseen).sublist
    exact fun d hd hin => List.disjoint_of_nodup_append hdisjoint hin
      (Forest.mem_ids_of_mem_roots hd)
  have hkids : ∀ c ∈ (w.dispatch policy .beforeChildren i).tree.children i,
      c ∈ route.ids := fun c hc =>
    (g.onRoute hbefore).children_mem hself hbegun.subset (by rwa [hi]) hc
  have habreast : Abreast route i .nil below
      (w.dispatch policy .beforeChildren i).tree {} :=
    ⟨hi, fun c hc hout => absurd (hkids c hc) hout, fun c hc => (by cases hc),
      fun c hc => rfl⟩
  obtain ⟨v, p, hends, hv⟩ := hbelow i {} _ .nil (seen ++ [i]) hbefore hself
    (hsplit ▸ hseen) habreast
  rw [hsplit]
  exact ⟨_, .visit hends, g.after hv (List.mem_append_left _ hself)⟩

/-- The progress after a child on the route was visited. -/
theorem Abreast.next {s r done : Forest} {t u : Tree} {p : Progress}
    (h : Abreast route n done (s.append r) t p) (hs : s.roots = [i])
    (hnodup : route.ids.Nodup) (ht : OnRoute route seen t) (hn : n ∈ seen)
    {later : List NodeId} (hu : OnRoute route later u)
    (hlater : later ++ r.ids <+: route.ids) (hn' : n ∈ later) :
    Abreast route n (done.append s) r u
      (p.after i (u.parent? i == some n) (t.children n) (u.children n)) := by
  have hroots : (route.offspring n).roots = done.roots ++ i :: r.roots := by
    rw [h.split, Forest.roots_append, Forest.roots_append, hs]
    rfl
  have hkid : ∀ c ∈ (route.offspring n).roots, c ∈ route.ids := fun c hc =>
    Forest.ids_offspring_subset n route (Forest.mem_ids_of_mem_roots hc)
  have hi : i ∈ (route.offspring n).roots := by simp [hroots]
  have hstill : (u.parent? i == some n) = true := by
    rw [beq_iff_eq, hu.sound.parent?_eq_some_iff]
    exact (hu.mem_children_iff hn' (hkid i hi)).mpr hi
  refine ⟨by rw [h.split, Forest.append_assoc], fun c hc hout => ?_, fun c hc =>
    ?_, fun c hc => ?_⟩
  · rw [Progress.passed_after, hstill, Progress.behind_of_still,
      List.mem_take_iff_idxOf_lt hc]
    by_cases hold : c ∈ t.children n
    · exact Or.inl (h.strays c hold hout)
    · -- A stray that turned up stands before a child that was begun, and
      -- that is `i` or was passed before it.
      refine Or.inr (Or.inr ⟨hold, ?_⟩)
      obtain ⟨d, hd, hdkid, hlt⟩ := hu.strays n hn' c hc hout
      have hdroute : d ∈ route.ids :=
        (List.prefix_append _ _ |>.trans hlater).subset hd
      have hdroot := (hu.mem_children_iff hn' hdroute).mp hdkid
      rw [hroots, List.mem_append, List.mem_cons] at hdroot
      rcases hdroot with hdone | rfl | hrest
      · have hpair : [d, i].Sublist (route.offspring n).roots := by
          rw [hroots]
          exact (List.singleton_sublist.mpr hdone).append (by simp)
        exact Nat.lt_trans hlt (hu.idxOf_lt hn' hpair)
      · exact hlt
      · have hdisjoint := List.disjoint_of_nodup_append
          (hnodup.sublist hlater.sublist)
        exact absurd (Forest.mem_ids_of_mem_roots hrest) (hdisjoint hd)
  · rw [Forest.roots_append, hs, List.mem_append, List.mem_singleton] at hc
    rw [Progress.passed_after]
    exact hc.imp (h.done c) Or.inl
  · have hcroot : c ∈ (route.offspring n).roots := by simp [hroots, hc]
    have hcold : c ∈ t.children n :=
      (ht.mem_children_iff hn (hkid c hcroot)).mpr hcroot
    have hnew : p.passed c = false :=
      h.todo c (by rw [Forest.roots_append]; exact List.mem_append_right _ hc)
    have hne : c ≠ i := by
      have hdistinct := Forest.nodup_roots (Forest.nodup_offspring n hnodup)
      rw [hroots] at hdistinct
      rintro rfl
      exact (List.nodup_cons.mp (List.nodup_append.mp hdistinct).2.1).1 hc
    rw [Bool.eq_false_iff, ne_eq, Progress.passed_after]
    simp [hnew, hne, hcold]

/-- A route goes tree by tree: the first tree is visited with all below it,
then the others. -/
theorem loopEnds_append (g : Guide policy route inv) (hnodup : route.ids.Nodup)
    {s r : Forest} (hs : s.roots = [i])
    (hbelow : LoopEnds policy route inv s.rootChildren)
    (hrest : LoopEnds policy route inv r) :
    LoopEnds policy route inv (s.append r) := by
  intro n p w done seen hw hn hseen h
  have hsids : s.ids = i :: s.rootChildren.ids := by
    rcases Forest.eq_of_roots_eq_singleton hs with ⟨k, y, rfl⟩ | ⟨k, c, rfl⟩ <;>
      simp [Forest.ids, Forest.rootChildren]
  rw [Forest.ids_append, hsids, ← List.append_assoc] at hseen
  have hi : route.offspring i = s.rootChildren := by
    rw [Forest.offspring, Forest.subtree?_of_offspring hnodup h.split hs]
    rfl
  have hkids := (g.onRoute hw).listed n hn
  rw [h.split, Forest.roots_append, Forest.roots_append, hs] at hkids
  -- The first tree ahead is the next child: strays count as passed, and so
  -- does what is done.
  have hnext : p.next? (w.tree.children n) = some i := by
    refine Progress.next?_of_filter hkids (fun c hc hout =>
      h.strays c hc (by simpa using hout)) h.done ?_
    exact h.todo i (by simp [Forest.roots_append, hs])
  -- Visit it with all below it, and go on with the rest.
  obtain ⟨v, hvisit, hv⟩ :=
    g.visit_ends hnodup hbelow hi hw ((List.prefix_append _ _).trans hseen)
  have hn' : n ∈ seen ++ i :: s.rootChildren.ids := List.mem_append_left _ hn
  obtain ⟨w', p', hends, hw'⟩ := hrest n _ v (done.append s) _ hv hn' hseen
    (h.next hs hnodup (g.onRoute hw) hn (g.onRoute hv) hseen hn')
  refine ⟨w', p', ?_, ?_⟩
  · rw [Forest.ids_append, hsids]
    exact .next ((g.onRoute hw).isAttached hn) hnext hvisit
      ((g.onRoute hv).isAttached hn') hends
  · rw [Forest.ids_append, hsids, ← List.append_assoc]
    exact hw'

/-- Every loop on the route ends; by induction on the trees that are still
to be visited. -/
theorem loopEnds (g : Guide policy route inv) (hnodup : route.ids.Nodup)
    (todo : Forest) :
    LoopEnds policy route inv todo := by
  induction todo with
  | nil => exact g.loopEnds_nil
  | token i k y r ih =>
    exact g.loopEnds_append hnodup (s := .token i k y .nil) rfl
      g.loopEnds_nil ih
  | node i k c r ihc ihr =>
    exact g.loopEnds_append hnodup (s := .node i k c .nil) rfl ihc ihr

/-- **A walk along a route ends,** and has begun the nodes of the route in
pre-order. -/
theorem ends (g : Guide policy route inv) (hnodup : route.ids.Nodup)
    (hroots : route.roots = [Tree.root]) (hw : inv [] w) :
    ∃ w', Walk.Ends policy Tree.root w w' route.ids ∧ inv route.ids w' := by
  have hself : route.subtree? Tree.root = some route :=
    Forest.subtree?_of_roots_eq hroots
  have hids : route.ids = Tree.root :: route.rootChildren.ids := by
    rcases Forest.eq_of_roots_eq_singleton hroots with ⟨k, y,
      rfl⟩ | ⟨k, c, rfl⟩ <;>
      simp [Forest.ids, Forest.rootChildren]
  have hbelow : route.offspring Tree.root = route.rootChildren := by
    rw [Forest.offspring, hself]
    rfl
  rw [hids]
  exact g.visit_ends hnodup (g.loopEnds hnodup _) hbelow hw
    (by rw [hids]; exact List.prefix_rfl)

end Guide

end TreeLint
