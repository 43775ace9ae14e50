import TreeLint.Proofs.Lint.Children
import TreeLint.Proofs.Tree.Reaction

/-!
# How far a walk has got

In the middle of a walk there is a node whose children are being visited,
and above it one node after the other with a child whose visit has not ended
(`Place`). A node needs no visit any more if its parent is done with, or if
the loop over the children of its parent has passed it (`Settled`). Code
that is not settled lies ahead: it comes after the next child to be visited
in document order (`Frontier.precedes_of_unsettled`), however much white
space was put in or taken out.

`Frontier` is what a walk keeps of this as long as rules react as they may
(`Tree.Reaction`). Every node that was visited is settled, except for one
token at most that was moved ahead and waits to be visited once more. Every
composite node that is settled was visited. What is kept when rules act,
when a node is entered and left, and when a token is visited is one lemma
for each.

The walk is that of the specification, §4.3.
-/

namespace TreeLint

/-- A node with a child whose visit has not ended. -/
structure Stage where
  node : NodeId
  /-- The progress when the visit began. -/
  progress : Progress
  child : NodeId
  /-- The children there were when the visit began. -/
  before : List NodeId

/-- Where a walk is: the node whose children are being visited, and those
above it, nearest first. -/
structure Place where
  node : NodeId
  progress : Progress
  outer : List Stage

/-- Each node is the child that is visited at the stage above it, up to the
root. -/
def Nested (t : Tree) : NodeId → List Stage → Prop
  | n, [] => n = Tree.root
  | n, o :: os => o.child = n ∧ t.parent? n = some o.node ∧ Nested t o.node os

/-- A child that will not be visited any more at this stage: passed, visited
now, or code that turned up before the child that is visited now. -/
def Stage.Passed (t : Tree) (o : Stage) (x : NodeId) : Prop :=
  o.progress.passed x = true ∨ x = o.child ∨ x ∉ o.before ∧ t.IsCode x ∧
    t.document.Precedes x o.child

namespace Place

/-- The nodes whose visits have not ended. -/
def Open (here : Place) (q : NodeId) : Prop :=
  q = here.node ∨ ∃ o ∈ here.outer, o.node = q

/-- A node that needs no visit any more. -/
def Settled (here : Place) (t : Tree) (trail : List NodeId)
    (x : NodeId) : Prop :=
  x = Tree.root ∨ ∃ q, t.parent? x = some q ∧
    (q ∈ trail ∧ ¬here.Open q ∨ q = here.node ∧ here.progress.passed x = true ∨
      ∃ o ∈ here.outer, o.node = q ∧ o.Passed t x)

/-- The place when the visit of a child begins. -/
def enter (here : Place) (t : Tree) (v : NodeId) : Place :=
  ⟨v, {}, ⟨here.node, here.progress, v, t.children here.node⟩ :: here.outer⟩

end Place

/-- A token that was moved ahead and waits to be visited once more: no token
of code before it does. -/
structure Pending (rests : Forest → NodeId → Prop) (t : Tree) (here : Place)
    (trail : List NodeId) (m : NodeId) : Prop where
  code : t.IsCode m
  leaf : t.isLeaf m = true
  rests : rests t.document m
  once : trail.count m = 1
  unsettled : ¬here.Settled t trail m
  first : ∀ y, t.IsCode y → t.isLeaf y = true → t.document.Precedes y m →
    here.Settled t trail y

/-- What a walk keeps: at this place, after visits of the nodes in `trail`,
with at most one token pending. -/
structure Frontier (atoms : Kind → Bool) (rests : Forest → NodeId → Prop)
    (t : Tree) (here : Place) (trail : List NodeId)
    (pend : Option NodeId) : Prop where
  tidy : t.Tidy atoms
  nested : Nested t here.node here.outer
  node : here.node ∈ t.document.ids ∧ t.isLeaf here.node = false
  opened : ∀ q, here.Open q → q ∈ trail
  known : ∀ x ∈ trail, x < t.count
  seen : ∀ x ∈ trail, x ∈ t.document.ids → pend ≠ some x →
    here.Settled t trail x
  entered : ∀ x ∈ t.document.ids, t.isLeaf x = false →
    here.Settled t trail x → x ∈ trail
  once : ∀ x ∈ t.document.ids, t.isLeaf x = false → trail.count x ≤ 1
  twice : ∀ x, trail.count x ≤ 2
  /-- Code that was there when the visit of a child began, and is still to
  be visited, has kept its place. -/
  ahead : ∀ o ∈ here.outer, ∀ z ∈ o.before, t.IsCode z →
    o.progress.passed z = false → z ≠ o.child →
    t.parent? z = some o.node ∧ t.document.Precedes o.child z
  /-- No composite node turns up among children. -/
  listed : ∀ o ∈ here.outer, ∀ x ∈ t.document.ids, t.isLeaf x = false →
    t.parent? x = some o.node → x ∈ o.before
  pending : ∀ m, pend = some m → Pending rests t here trail m

variable {atoms : Kind → Bool} {rests : Forest → NodeId → Prop} {t u : Tree}
  {here : Place} {n q v x : NodeId} {outer : List Stage}
  {trail trail' : List NodeId} {pend pend' : Option NodeId}
  {free : NodeId → Prop}

/-! ## Nodes above and beside each other -/

/-- Children come in the order of their indices. -/
theorem Tree.Sound.precedes_children_iff {y : NodeId} (h : t.Sound)
    (hq : q ∈ t.document.ids) (hx : x ∈ t.children q) (hy : y ∈ t.children q) :
    t.document.Precedes x y ↔
      (t.children q).idxOf x < (t.children q).idxOf y := by
  have hroots := h.offspring_document hq
  rw [Forest.precedes_iff_roots h.nodup_document (p := q) (hroots ▸ hx)
    (hroots ▸ hy), hroots,
    pair_sublist_iff (h.nodup_children q)]
  exact and_iff_right hy

/-- The stages further out are at nodes above, each with the child it is at
on the way down. -/
theorem Nested.above {o : Stage} (h : Nested t n outer) (ht : t.Sound)
    (ho : o ∈ outer) :
    o.node ∈ t.ancestors n ∧ t.parent? o.child = some o.node ∧
      (o.child = n ∨ o.child ∈ t.ancestors n) := by
  induction outer generalizing n with
  | nil => cases ho
  | cons o' os ih =>
    obtain ⟨hchild, hparent, hrest⟩ := h
    have habove := Tree.ancestors_of_parent? ht.nodup hparent
    rw [habove]
    rcases List.mem_cons.mp ho with rfl | ho
    · exact ⟨List.mem_cons_self, hchild ▸ hparent, Or.inl hchild⟩
    · obtain ⟨hnode, hp, hc⟩ := ih hrest ho
      refine ⟨List.mem_cons_of_mem _ hnode, hp, Or.inr ?_⟩
      exact List.mem_cons.mpr hc

/-- The nodes above keep their parents if no composite node is moved. -/
theorem Nested.steady (h : Nested t n outer) (ht : t.Tidy atoms)
    (hs : t.Steady free u) (hn : n ∈ t.document.ids)
    (hleaf : t.isLeaf n = false) (hfree : ∀ m, free m → t.isLeaf m = true) :
    Nested u n outer := by
  induction outer generalizing n with
  | nil => exact h
  | cons o os ih =>
    obtain ⟨hchild, hparent, hrest⟩ := h
    have hcode := ht.isCode_of_composite hn hleaf
    have hnot : ¬free n := fun hf => by simp [hfree n hf] at hleaf
    have hnode : t.isLeaf o.node = false := by
      rw [Bool.eq_false_iff]
      intro htoken
      have hkids := ht.sound.parent?_eq_some_iff.mp hparent
      rw [ht.sound.linked.token_childless _ htoken] at hkids
      cases hkids
    exact ⟨hchild, (hs.parent_of_isCode hcode hnot).trans hparent,
      ih hrest (ht.sound.parent_mem_document hn hparent) hnode⟩

/-! ## Settled nodes -/

namespace Place

/-- More progress and more visits settle more. -/
theorem Settled.mono {p : Progress} (h : here.Settled t trail x)
    (hp : here.progress.passed x = true → p.passed x = true)
    (htrail : trail ⊆ trail') :
    Place.Settled { here with progress := p } t trail' x := by
  rcases h with hroot | ⟨q, hq, ⟨hdone, hclosed⟩ | ⟨hnode, hpassed⟩ | houter⟩
  · exact Or.inl hroot
  · exact Or.inr ⟨q, hq, Or.inl ⟨htrail hdone, hclosed⟩⟩
  · exact Or.inr ⟨q, hq, Or.inr (Or.inl ⟨hnode, hp hpassed⟩)⟩
  · exact Or.inr ⟨q, hq, Or.inr (Or.inr houter)⟩

end Place

namespace Frontier

variable {o : Stage}

theorem sound (h : Frontier atoms rests t here trail pend) : t.Sound :=
  h.tidy.sound

theorem composite_of_parent (h : Frontier atoms rests t here trail pend)
    (hq : t.parent? x = some q) : t.isLeaf q = false := by
  rw [Bool.eq_false_iff]
  intro htoken
  have hkids := h.sound.parent?_eq_some_iff.mp hq
  rw [h.sound.linked.token_childless _ htoken] at hkids
  cases hkids

theorem mem_of_ancestor (h : Frontier atoms rests t here trail pend)
    (hx : x = here.node ∨ x ∈ t.ancestors here.node) : x ∈ t.document.ids := by
  rcases hx with rfl | hx
  · exact h.node.1
  · exact h.sound.ancestor_mem_document h.node.1 hx

/-- The child that is visited at a stage above is a composite node. -/
theorem child (h : Frontier atoms rests t here trail pend)
    (ho : o ∈ here.outer) :
    t.IsCode o.child ∧ t.isLeaf o.child = false := by
  obtain ⟨-, -, hc⟩ := h.nested.above h.sound ho
  have hmem := h.mem_of_ancestor hc
  have hleaf : t.isLeaf o.child = false := by
    rcases hc with hc | hc
    · exact hc ▸ h.node.2
    · -- what stands above something is no token
      rw [Bool.eq_false_iff]
      intro htoken
      obtain ⟨s, hs⟩ := Forest.exists_subtree hmem
      have hbelow : here.node ∈ s.ids := by
        rw [Forest.mem_subtree?_iff h.sound.nodup_document hs,
          h.sound.ancestors?_document h.node.1]
        exact Or.inr hc
      obtain ⟨k, y, -, -, hsub⟩ :=
        Tree.document_subtree_of_token h.sound hmem htoken
      rw [hsub] at hs
      cases hs
      rw [List.mem_singleton.mp hbelow] at hc
      exact h.sound.linked.not_own_ancestor _ hc
  exact ⟨h.tidy.isCode_of_composite hmem hleaf, hleaf⟩

theorem node_ne (h : Frontier atoms rests t here trail pend)
    (ho : o ∈ here.outer) : o.node ≠ here.node := by
  intro heq
  have habove := (h.nested.above h.sound ho).1
  rw [heq] at habove
  exact h.sound.linked.not_own_ancestor _ habove

/-- A child of the node whose children are being visited is settled if it
was passed. -/
theorem settled_child_iff (h : Frontier atoms rests t here trail pend)
    (hx : t.parent? x = some here.node) :
    here.Settled t trail x ↔ here.progress.passed x = true := by
  constructor
  · rintro (rfl | ⟨q, hq, hcase⟩)
    · rw [h.sound.linked.root_parentless] at hx
      cases hx
    · rw [hx] at hq
      cases hq
      rcases hcase with ⟨-, hclosed⟩ | ⟨-, hpassed⟩ | ⟨o, ho, heq, -⟩
      · exact absurd (Or.inl rfl) hclosed
      · exact hpassed
      · exact absurd heq (h.node_ne ho)
  · exact fun hpassed => Or.inr ⟨here.node, hx, Or.inr (Or.inl ⟨rfl, hpassed⟩)⟩

/-- Code that a stage above has not passed comes after the child that is
visited there. -/
theorem child_precedes (h : Frontier atoms rests t here trail pend)
    (ho : o ∈ here.outer) (hx : t.IsCode x) (hpassed : ¬o.Passed t x) :
    t.document.Precedes o.child x := by
  have hne : x ≠ o.child := fun heq => hpassed (Or.inr (Or.inl heq))
  by_cases hbefore : x ∈ o.before
  · have hprogress : o.progress.passed x = false := by
      rw [← Bool.not_eq_true]
      exact fun hp => hpassed (Or.inl hp)
    exact (h.ahead o ho x hbefore hx hprogress hne).2
  · rcases Forest.precedes_total h.sound.nodup_document hx.1 (h.child ho).1.1
      hne with hprec | hprec
    · exact absurd (Or.inr (Or.inr ⟨hbefore, hx, hprec⟩)) hpassed
    · exact hprec

section Next

variable (h : Frontier atoms rests t here trail pend)
  (hnext : here.progress.next? (t.children here.node) = some v)

include h hnext

theorem parent_next : t.parent? v = some here.node :=
  h.sound.parent?_eq_some_iff.mpr (Progress.next?_eq_some hnext).1

theorem mem_next : v ∈ t.document.ids :=
  h.sound.child_mem_document h.node.1 (Progress.next?_eq_some hnext).1

theorem next_unsettled : ¬here.Settled t trail v := by
  rw [h.settled_child_iff (h.parent_next hnext),
    (Progress.next?_eq_some hnext).2]
  exact Bool.false_ne_true

/-- What is visited next was not visited before, unless it was moved ahead. -/
theorem next_not_seen (hpend : pend ≠ some v) : v ∉ trail :=
  fun hseen => h.next_unsettled hnext (h.seen v hseen (h.mem_next hnext) hpend)

/-- A child that was not passed comes after the next one. -/
theorem precedes_of_not_passed (hx : t.parent? x = some here.node)
    (hpassed : here.progress.passed x = false) :
    x = v ∨ t.document.Precedes v x := by
  have hkids := h.sound.parent?_eq_some_iff.mp hx
  obtain ⟨-, before, after, hsplit, hbefore⟩ :=
    List.find?_eq_some_iff_append.mp hnext
  have hroots := h.sound.offspring_document h.node.1
  rw [hsplit] at hkids hroots
  rcases List.mem_append.mp hkids with hx | hx
  · have hpast := hbefore x hx
    simp [hpassed] at hpast
  · rcases List.mem_cons.mp hx with rfl | hx
    · exact Or.inl rfl
    · refine Or.inr ((Forest.precedes_iff_roots h.sound.nodup_document
        (p := here.node) ?_ ?_).mpr ?_)
      · simp [hroots]
      · simp [hroots, hx]
      · rw [hroots]
        exact ((List.singleton_sublist.mpr hx).cons_cons v).trans
          (List.sublist_append_right _ _)

/-- What comes after the child that is visited at a stage above comes after
all that is visited below it. -/
theorem precedes_of_child (ho : o ∈ here.outer) (hxdoc : x ∈ t.document.ids)
    (hx : t.parent? x = some o.node) (hprec : t.document.Precedes o.child x) :
    t.document.Precedes v x := by
  have hnodup := h.sound.nodup_document
  obtain ⟨-, hparent, hbelow⟩ := h.nested.above h.sound ho
  have hroots := h.sound.offspring_document
    (h.sound.parent_mem_document hxdoc hx)
  have hchild := h.sound.subtree?_document (h.child ho).1.1
  refine hprec.of_below hnodup (p := o.node) ?_ ?_ hchild ?_
  · exact hroots ▸ h.sound.parent?_eq_some_iff.mp hparent
  · exact hroots ▸ h.sound.parent?_eq_some_iff.mp hx
  · rw [Forest.mem_subtree?_iff hnodup hchild,
      h.sound.ancestors?_document (h.mem_next hnext), Option.getD_some,
      Tree.ancestors_of_parent? h.sound.nodup (h.parent_next hnext)]
    exact Or.inr (List.mem_cons.mpr hbelow)

/-- **What is not settled lies ahead.** By induction along the parents: if
the parent was entered, the loop over its children has not passed the node,
and if not, the parent is not settled either. -/
theorem precedes_of_unsettled (hx : t.IsCode x)
    (hun : ¬here.Settled t trail x) :
    x = v ∨ t.document.Precedes v x := by
  have hnodup := h.sound.nodup_document
  -- Up from the node to its parents. If the parent is open the place tells;
  -- otherwise the parent is not settled either, and precedes.
  induction x using h.sound.linked.chains_end.induction with
  | _ x ih =>
  cases hq : t.parent? x with
  | none =>
    have hroot : x = Tree.root := by
      have hatt := h.sound.mem_document_iff.mp hx.1
      simpa [Tree.isAttached, Tree.ancestors_of_parent?_eq_none hq] using hatt
    exact absurd (Or.inl hroot) hun
  | some q =>
    have hqdoc := h.sound.parent_mem_document hx.1 hq
    have hkids := h.sound.parent?_eq_some_iff.mp hq
    have hroots := h.sound.offspring_document hqdoc
    by_cases hnode : q = here.node
    · subst hnode
      refine h.precedes_of_not_passed hnext hq ?_
      rw [← Bool.not_eq_true, ← h.settled_child_iff hq]
      exact hun
    · by_cases houter : ∃ o ∈ here.outer, o.node = q
      · -- below the child that is visited there, which comes before
        obtain ⟨o, ho, rfl⟩ := houter
        have hpassed : ¬o.Passed t x := fun hpassed =>
          hun (Or.inr ⟨o.node, hq, Or.inr (Or.inr ⟨o, ho, rfl, hpassed⟩)⟩)
        exact Or.inr (h.precedes_of_child hnext ho hx.1 hq
          (h.child_precedes ho hx hpassed))
      · have hqleaf := h.composite_of_parent hq
        have hqcode := h.tidy.isCode_of_composite hqdoc hqleaf
        have hclosed : ¬here.Open q := fun hopen => hopen.elim hnode houter
        have hqun : ¬here.Settled t trail q := fun hsettled =>
          hun
            (Or.inr
              ⟨q, hq, Or.inl ⟨h.entered q hqdoc hqleaf hsettled, hclosed⟩⟩)
        have hchild : t.document.Precedes q x :=
          Forest.precedes_child (hroots ▸ hkids)
        rcases ih q hq hqcode hqun with rfl | hprec
        · exact Or.inr hchild
        · exact Or.inr (hprec.trans hchild hnodup)

end Next

/-! ## When rules act -/

/-- Changes that keep code in place settle nothing and unsettle nothing. -/
theorem settled_steady_iff (h : Frontier atoms rests t here trail pend)
    (hs : t.Steady free u) (hu : u.Sound)
    (hfree : ∀ m, free m → t.isLeaf m = true) (hx : x ∈ t.document.ids)
    (hx' : x ∈ u.document.ids) (hxf : ¬free x) :
    here.Settled u trail x ↔ here.Settled t trail x := by
  have hpassed : ∀ o ∈ here.outer, (o.Passed u x ↔ o.Passed t x) := by
    intro o ho
    obtain ⟨hcode, hleaf⟩ := h.child ho
    have hchild : ¬free o.child := fun hf => by simp [hfree _ hf] at hleaf
    refine or_congr_right (or_congr_right (and_congr_right fun _ => ?_))
    rw [hs.isCode_iff]
    exact and_congr_right fun hxc =>
      hs.precedes_iff h.sound hu hxc hcode hxf hchild
  unfold Place.Settled
  rw [hs.parent x hx hx' hxf]
  refine or_congr_right (exists_congr fun q => and_congr_right fun _ =>
    or_congr_right (or_congr_right ?_))
  exact exists_congr fun o => and_congr_right fun ho => and_congr_right fun _ =>
    hpassed o ho

/-- Whatever keeps code where it is keeps the frontier, and so does moving
the child that is about to be visited. -/
theorem steady (h : Frontier atoms rests t here trail pend)
    (hs : t.Steady free u) (hu : u.Consistent)
    (hfree : ∀ m, free m → t.isLeaf m = true ∧
      t.parent? m = some here.node ∧ m ∉ trail)
    (hpend : ∀ m, pend = some m → (∀ x, ¬free x) ∧ rests u.document m) :
    Frontier atoms rests u here trail pend := by
  have hleaf : ∀ m, free m → t.isLeaf m = true := fun m hf => (hfree m hf).1
  -- A node that was visited is no new one.
  have hold : ∀ {x}, x ∈ trail → x ∈ u.document.ids → x ∈ t.document.ids := by
    intro x hx hxu
    by_contra hxt
    exact Nat.not_lt.mpr (hs.fresh x hxu hxt).1 (h.known x hx)
  -- New nodes are tokens, so composite nodes were there before.
  have hcomp : ∀ {x}, x ∈ u.document.ids → u.isLeaf x = false →
      x ∈ t.document.ids ∧ t.isLeaf x = false ∧ t.IsCode x ∧ ¬free x := by
    intro x hxu hxl
    have hxt : x ∈ t.document.ids := by
      by_contra hxt
      simp [(hs.fresh x hxu hxt).2.2] at hxl
    have hxl' : t.isLeaf x = false := (hs.label x hxt hxu).2.symm.trans hxl
    exact ⟨hxt, hxl', h.tidy.isCode_of_composite hxt hxl',
      fun hf => by simp [hleaf x hf] at hxl'⟩
  have hnode := h.tidy.isCode_of_composite h.node.1 h.node.2
  refine
    { tidy := h.tidy.steady hs hu
      nested := h.nested.steady h.tidy hs h.node.1 h.node.2 hleaf
      node := ⟨(hs.isCode hnode).1, (hs.isLeaf hnode).trans h.node.2⟩
      opened := h.opened
      known := fun x hx => Nat.lt_of_lt_of_le (h.known x hx) hs.grows
      seen := fun x hx hxu hp => ?_
      entered := fun x hxu hxl hset => ?_
      once := fun x hxu hxl => h.once x (hcomp hxu hxl).1 (hcomp hxu hxl).2.1
      twice := h.twice
      ahead := fun o ho z hz hzc hpassed hne => ?_
      listed := fun o ho x hxu hxl hparent => ?_
      pending := fun m hm => ?_ }
  · -- `seen`: what may be moved was not visited yet.
    have hxf : ¬free x := fun hf => (hfree x hf).2.2 hx
    exact (h.settled_steady_iff hs hu.sound hleaf (hold hx hxu) hxu hxf).mpr
      (h.seen x hx (hold hx hxu) hp)
  · -- `entered`
    obtain ⟨hxt, hxl', -, hxf⟩ := hcomp hxu hxl
    exact h.entered x hxt hxl'
      ((h.settled_steady_iff hs hu.sound hleaf hxt hxu hxf).mp hset)
  · -- `ahead`: what may be moved is a child of this node, not of one
    -- further out.
    have hzt := hs.isCode_iff.mp hzc
    obtain ⟨hparent, hprec⟩ := h.ahead o ho z hz hzt hpassed hne
    have hzf : ¬free z := by
      intro hf
      rw [(hfree z hf).2.1] at hparent
      exact h.node_ne ho (Option.some.inj hparent).symm
    obtain ⟨hchild, hcl⟩ := h.child ho
    have hcf : ¬free o.child := fun hf => by simp [hleaf _ hf] at hcl
    exact ⟨(hs.parent_of_isCode hzt hzf).trans hparent,
      (hs.precedes_iff h.sound hu.sound hchild hzt hcf hzf).mpr hprec⟩
  · -- `listed`
    obtain ⟨hxt, hxl', hxc, hxf⟩ := hcomp hxu hxl
    exact h.listed o ho x hxt hxl'
      ((hs.parent_of_isCode hxc hxf).symm.trans hparent)
  · -- `pending`: while a token waits nothing else is moved.
    obtain ⟨hnone, hrest⟩ := hpend m hm
    have hp := h.pending m hm
    have hiff : ∀ {x}, t.IsCode x →
        (here.Settled u trail x ↔ here.Settled t trail x) := fun hx =>
      h.settled_steady_iff hs hu.sound hleaf hx.1 (hs.isCode hx).1 (hnone _)
    refine ⟨hs.isCode hp.code, (hs.isLeaf hp.code).trans hp.leaf, hrest,
      hp.once, ?_, fun y hy hyl hym => ?_⟩
    · rw [hiff hp.code]
      exact hp.unsettled
    · have hyt := hs.isCode_iff.mp hy
      rw [hiff hyt]
      exact hp.first y hyt ((hs.isLeaf hyt).symm.trans hyl)
        ((hs.precedes_iff h.sound hu.sound hyt hp.code (hnone y) (hnone m)).mp
          hym)

/-! ## Entering and leaving a node -/

/-- Entering a node settles that node and no other. -/
theorem settled_enter_iff (h : Frontier atoms rests t here trail pend)
    (hv : t.parent? v = some here.node) (hnot : v ∉ trail) :
    (here.enter t v).Settled t (trail ++ [v]) x ↔
      here.Settled t trail x ∨ x = v := by
  have hopen : ∀ {q}, (here.enter t v).Open q ↔ q = v ∨ here.Open q := by
    intro q
    simp only [Place.Open, Place.enter, List.exists_mem_cons_iff,
      eq_comm (a := here.node)]
  -- One case for each way to be settled: the root, below a node that was
  -- left, passed here, or passed further out.
  constructor
  · rintro (rfl | ⟨q, hq, ⟨hdone, hclosed⟩ | ⟨-, hpassed⟩ | ⟨o, ho,
      rfl, hpassed⟩⟩)
    · exact Or.inl (Or.inl rfl)
    · rw [hopen, not_or] at hclosed
      have hq' : q ∈ trail := by simpa [hclosed.1] using hdone
      exact Or.inl (Or.inr ⟨q, hq, Or.inl ⟨hq', hclosed.2⟩⟩)
    · simp [Place.enter, Progress.passed] at hpassed
    · rcases List.mem_cons.mp ho with rfl | ho
      · rcases hpassed with hpassed | rfl | ⟨hout, -⟩
        · exact Or.inl (Or.inr ⟨_, hq, Or.inr (Or.inl ⟨rfl, hpassed⟩)⟩)
        · exact Or.inr rfl
        · exact absurd (h.sound.parent?_eq_some_iff.mp hq) hout
      · exact Or.inl (Or.inr ⟨_, hq, Or.inr (Or.inr ⟨o, ho, rfl, hpassed⟩)⟩)
  · rintro ((rfl | ⟨q, hq, ⟨hdone, hclosed⟩ | ⟨rfl, hpassed⟩ | ⟨o, ho, rfl,
      hpassed⟩⟩) | rfl)
    · exact Or.inl rfl
    · refine Or.inr ⟨q, hq, Or.inl ⟨List.mem_append_left _ hdone, ?_⟩⟩
      rw [hopen, not_or]
      exact ⟨fun heq => hnot (heq ▸ hdone), hclosed⟩
    · exact Or.inr
        ⟨_, hq, Or.inr (Or.inr ⟨_, List.mem_cons_self, rfl, Or.inl hpassed⟩)⟩
    · exact Or.inr
        ⟨_, hq, Or.inr (Or.inr ⟨o, List.mem_cons_of_mem _ ho, rfl, hpassed⟩)⟩
    · exact Or.inr ⟨_, hv, Or.inr
        (Or.inr ⟨_, List.mem_cons_self, rfl, Or.inr (Or.inl rfl)⟩)⟩

/-- The visit of a composite node begins. -/
theorem enter (h : Frontier atoms rests t here trail pend)
    (hnext : here.progress.next? (t.children here.node) = some v)
    (hleaf : t.isLeaf v = false) :
    Frontier atoms rests t (here.enter t v) (trail ++ [v]) pend := by
  -- The token that waits is not the node that is entered, which is
  -- composite.
  have hleaf_ne : ∀ {m}, pend = some m → m ≠ v := by
    rintro m hp rfl
    simp [(h.pending m hp).leaf] at hleaf
  have hv := h.parent_next hnext
  have hnot := h.next_not_seen hnext fun hp => hleaf_ne hp rfl
  have hset : ∀ {x}, (here.enter t v).Settled t (trail ++ [v]) x ↔
      here.Settled t trail x ∨ x = v :=
    h.settled_enter_iff hv hnot
  refine
    { tidy := h.tidy
      nested := ⟨rfl, hv, h.nested⟩
      node := ⟨h.mem_next hnext, hleaf⟩
      opened := ?_
      known := ?_
      seen := fun x hx hxt hp => hset.mpr ?_
      entered := fun x hxt hxl hx => ?_
      once := fun x hxt hxl => ?_
      twice := fun x => ?_
      ahead := List.forall_mem_cons.mpr ⟨fun z hz hzc hpassed hne =>
        ?_, h.ahead⟩
      listed := List.forall_mem_cons.mpr ⟨fun x _ _ hx =>
        h.sound.parent?_eq_some_iff.mp hx, h.listed⟩
      pending := fun m hm => ?_ }
  · -- `opened`
    rintro q (rfl | ⟨o, ho, rfl⟩)
    · simp
    · rcases List.mem_cons.mp ho with rfl | ho
      · exact List.mem_append_left _ (h.opened _ (Or.inl rfl))
      · exact List.mem_append_left _ (h.opened _ (Or.inr ⟨o, ho, rfl⟩))
  · -- `known`
    intro x hx
    rcases List.mem_append.mp hx with hx | hx
    · exact h.known x hx
    · rw [List.mem_singleton.mp hx]
      exact h.sound.lt_count (h.mem_next hnext)
  · -- `seen`
    rcases List.mem_append.mp hx with hx | hx
    · exact Or.inl (h.seen x hx hxt hp)
    · exact Or.inr (List.mem_singleton.mp hx)
  · -- `entered`
    rcases hset.mp hx with hx | rfl
    · exact List.mem_append_left _ (h.entered x hxt hxl hx)
    · exact List.mem_append_right _ List.mem_cons_self
  · rw [List.count_append, List.count_singleton]
    split
    · next heq =>
      rw [← beq_iff_eq.mp heq, List.count_eq_zero_of_not_mem hnot]
    · exact h.once x hxt hxl
  · rw [List.count_append, List.count_singleton]
    split
    · next heq =>
      rw [← beq_iff_eq.mp heq, List.count_eq_zero_of_not_mem hnot]
      decide
    · exact h.twice x
  · -- `ahead`: behind the node that is entered, its siblings come later.
    have hz' := h.sound.parent?_eq_some_iff.mpr hz
    exact ⟨hz', (h.precedes_of_not_passed hnext hz' hpassed).resolve_left hne⟩
  · -- `pending`
    have hp := h.pending m hm
    refine ⟨hp.code, hp.leaf, hp.rests, ?_, ?_, fun y hy hyl hym =>
      hset.mpr (Or.inl (hp.first y hy hyl hym))⟩
    · rw [List.count_append, List.count_singleton, if_neg, hp.once]
      simpa using (hleaf_ne hm).symm
    · rw [hset, not_or]
      exact ⟨hp.unsettled, hleaf_ne hm⟩

section Leave

variable {os : List Stage} {p : Progress}

/-- The progress at a stage whose child stays where it is. -/
theorem passed_still_iff (h : Frontier atoms rests t ⟨v, p, o :: os⟩ trail pend)
    (hx : t.parent? x = some o.node) :
    (o.progress.after v true o.before (t.children o.node)).passed x = true ↔
      o.progress.passed x = true ∨ x = v ∨ x ∉ o.before ∧
        t.document.Precedes x v := by
  have hparent : t.parent? v = some o.node := h.nested.2.1
  have hxkids := h.sound.parent?_eq_some_iff.mp hx
  have hq := h.sound.parent_mem_document h.node.1 hparent
  rw [Progress.passed_after, Progress.behind_of_still,
    List.mem_take_iff_idxOf_lt hxkids,
    h.sound.precedes_children_iff hq hxkids
      (h.sound.parent?_eq_some_iff.mp hparent)]

/-- Once its children are passed, leaving a node unsettles nothing. -/
theorem settled_leave (h : Frontier atoms rests t ⟨v, p, o :: os⟩ trail pend)
    (hx : Place.Settled ⟨v, p, o :: os⟩ t trail x) :
    Place.Settled ⟨o.node, o.progress.after v true o.before (t.children o.node),
      os⟩ t trail x := by
  have hchild : o.child = v := h.nested.1
  rcases hx with rfl | ⟨q, hq,
    ⟨hdone, hclosed⟩ | ⟨hqv, -⟩ | ⟨o', ho', rfl, hpassed⟩⟩
  · exact Or.inl rfl
  · refine Or.inr ⟨q, hq, Or.inl ⟨hdone, ?_⟩⟩
    rintro (rfl | ⟨o', ho', rfl⟩)
    · exact hclosed (Or.inr ⟨o, List.mem_cons_self, rfl⟩)
    · exact hclosed (Or.inr ⟨o', List.mem_cons_of_mem _ ho', rfl⟩)
  · -- a child of the node that is left, which is done with
    refine Or.inr ⟨q, hq, Or.inl ⟨h.opened q (Or.inl hqv), ?_⟩⟩
    rintro (heq | ⟨o', ho', heq⟩)
    · exact h.node_ne List.mem_cons_self (heq.symm.trans hqv)
    · exact h.node_ne (List.mem_cons_of_mem _ ho') (heq.trans hqv)
  · rcases List.mem_cons.mp ho' with rfl | ho'
    · refine Or.inr
        ⟨_, hq, Or.inr (Or.inl ⟨rfl, (h.passed_still_iff hq).mpr ?_⟩)⟩
      rcases hpassed with hpassed | hpassed | ⟨hout, -, hprec⟩
      · exact Or.inl hpassed
      · exact Or.inr (Or.inl (hpassed.trans hchild))
      · exact Or.inr (Or.inr ⟨hout, hchild ▸ hprec⟩)
    · exact Or.inr ⟨_, hq, Or.inr (Or.inr ⟨o', ho', rfl, hpassed⟩)⟩

/-- And of code it settles nothing. -/
theorem of_settled_leave (h : Frontier atoms rests t ⟨v, p, o :: os⟩ trail pend)
    (hend : p.next? (t.children v) = none) (hcode : t.IsCode x)
    (hx : Place.Settled ⟨o.node,
      o.progress.after v true o.before (t.children o.node), os⟩ t trail x) :
    Place.Settled ⟨v, p, o :: os⟩ t trail x := by
  have hchild : o.child = v := h.nested.1
  -- The four ways to be settled after the node was left, each traced back
  -- to one of those before.
  rcases hx with rfl | ⟨q, hq, ⟨hdone, hclosed⟩ | ⟨rfl, hpassed⟩ | ⟨o', ho',
    rfl, hpassed⟩⟩
  · exact Or.inl rfl
  · by_cases hqv : q = v
    · subst hqv
      have hpassed := Progress.passed_of_next?_eq_none hend
        (h.sound.parent?_eq_some_iff.mp hq)
      exact Or.inr ⟨q, hq, Or.inr (Or.inl ⟨rfl, hpassed⟩)⟩
    · refine Or.inr ⟨q, hq, Or.inl ⟨hdone, ?_⟩⟩
      rintro (heq | ⟨o', ho', rfl⟩)
      · exact hqv heq
      · rcases List.mem_cons.mp ho' with rfl | ho'
        · exact hclosed (Or.inl rfl)
        · exact hclosed (Or.inr ⟨o', ho', rfl⟩)
  · refine Or.inr ⟨_, hq, Or.inr (Or.inr ⟨o, List.mem_cons_self, rfl, ?_⟩)⟩
    rcases (h.passed_still_iff hq).mp hpassed
      with hpassed | hpassed | ⟨hout, hprec⟩
    · exact Or.inl hpassed
    · exact Or.inr (Or.inl (hpassed.trans hchild.symm))
    · exact Or.inr (Or.inr ⟨hout, hcode, hchild.symm ▸ hprec⟩)
  · exact Or.inr
      ⟨_, hq, Or.inr (Or.inr ⟨o', List.mem_cons_of_mem _ ho', rfl, hpassed⟩)⟩

/-- The visit of a composite node ends. -/
theorem leave (h : Frontier atoms rests t ⟨v, p, o :: os⟩ trail pend)
    (hend : p.next? (t.children v) = none) :
    Frontier atoms rests t ⟨o.node,
      o.progress.after v true o.before (t.children o.node), os⟩ trail pend where
  tidy := h.tidy
  nested := h.nested.2.2
  node := ⟨h.sound.parent_mem_document h.node.1 h.nested.2.1,
    h.composite_of_parent h.nested.2.1⟩
  opened := by
    rintro q (rfl | ⟨o', ho', rfl⟩)
    · exact h.opened _ (Or.inr ⟨o, List.mem_cons_self, rfl⟩)
    · exact h.opened _ (Or.inr ⟨o', List.mem_cons_of_mem _ ho', rfl⟩)
  known := h.known
  seen x hx hxt hp := h.settled_leave (h.seen x hx hxt hp)
  entered x hxt hxl hx := h.entered x hxt hxl
    (h.of_settled_leave hend (h.tidy.isCode_of_composite hxt hxl) hx)
  once := h.once
  twice := h.twice
  ahead o' ho' := h.ahead o' (List.mem_cons_of_mem _ ho')
  listed o' ho' := h.listed o' (List.mem_cons_of_mem _ ho')
  pending m hm := by
    have hp := h.pending m hm
    exact ⟨hp.code, hp.leaf, hp.rests, hp.once, fun hset =>
      hp.unsettled (h.of_settled_leave hend hp.code hset),
      fun y hy hyl hym => h.settled_leave (hp.first y hy hyl hym)⟩

end Leave

/-! ## Visiting a token -/

/-- A token is marked as visited: the loop goes on past it, and it is
settled or pending. -/
theorem mark {p : Progress} (h : Frontier atoms rests t here trail pend)
    (hv : v ∈ t.document.ids) (hleaf : t.isLeaf v = true)
    (hcount : trail.count v ≤ 1)
    (hmono : ∀ x, here.progress.passed x = true → p.passed x = true)
    (hback : ∀ x, t.IsCode x → x ≠ v → t.parent? x = some here.node →
      p.passed x = true → here.progress.passed x = true)
    (hself : pend' ≠ some v → Place.Settled
      { here with progress := p } t (trail ++ [v]) v)
    (hkeep : ∀ m, m ≠ v → pend = some m → pend' = some m)
    (hpend : ∀ m, pend' = some m → Pending rests t
      { here with progress := p } (trail ++ [v]) m ∨ pend = some m ∧ m ≠ v) :
    Frontier atoms rests t
      { here with progress := p } (trail ++ [v]) pend' := by
  have hsub : trail ⊆ trail ++ [v] := List.subset_append_left _ _
  -- What was settled stays so, and apart from the visited token nothing new
  -- is settled.
  have hset : ∀ {x}, here.Settled t trail x → Place.Settled
      { here with progress := p } t (trail ++ [v]) x :=
    fun hx => hx.mono (hmono _) hsub
  have hunset : ∀ {x}, t.IsCode x → x ≠ v → Place.Settled
      { here with progress := p } t (trail ++ [v]) x →
      here.Settled t trail x := by
    rintro x hx hne
      (rfl | ⟨q, hq, ⟨hdone, hclosed⟩ | ⟨hnode, hpassed⟩ | houter⟩)
    · exact Or.inl rfl
    · have hqv : q ≠ v := by
        rintro rfl
        simp [h.composite_of_parent hq] at hleaf
      have hq' : q ∈ trail := by simpa [hqv] using hdone
      exact Or.inr ⟨q, hq, Or.inl ⟨hq', hclosed⟩⟩
    · exact Or.inr
        ⟨q, hq, Or.inr (Or.inl ⟨hnode, hback x hx hne (hnode ▸ hq) hpassed⟩)⟩
    · exact Or.inr ⟨q, hq, Or.inr (Or.inr houter)⟩
  have hne : ∀ {x}, t.isLeaf x = false → x ≠ v := by
    rintro x hxl rfl
    simp [hxl] at hleaf
  refine
    { tidy := h.tidy
      nested := h.nested
      node := h.node
      opened := fun q hq => hsub (h.opened q hq)
      known := ?_
      seen := fun x hx hxt hp => ?_
      entered := fun x hxt hxl hx => ?_
      once := fun x hxt hxl => ?_
      twice := fun x => ?_
      ahead := h.ahead
      listed := h.listed
      pending := fun m hm => ?_ }
  · intro x hx
    rcases List.mem_append.mp hx with hx | hx
    · exact h.known x hx
    · rw [List.mem_singleton.mp hx]
      exact h.sound.lt_count hv
  · -- `seen`: the token itself is settled, or waits.
    by_cases hxv : x = v
    · subst hxv
      exact hself hp
    · have hx' : x ∈ trail := by simpa [hxv] using hx
      exact hset (h.seen x hx' hxt fun hpx => hp (hkeep x hxv hpx))
  · -- `entered`
    exact hsub (h.entered x hxt hxl
      (hunset (h.tidy.isCode_of_composite hxt hxl) (hne hxl) hx))
  · rw [List.count_append, List.count_singleton,
      if_neg (by simpa using (hne hxl).symm)]
    exact h.once x hxt hxl
  · rw [List.count_append, List.count_singleton]
    split
    · next heq =>
      rw [← beq_iff_eq.mp heq]
      exact Nat.succ_le_succ hcount
    · exact h.twice x
  · -- `pending`: a token that starts to wait now, or one that waited
    -- already.
    rcases hpend m hm with hp | ⟨hpm, hmv⟩
    · exact hp
    · have hp := h.pending m hpm
      refine ⟨hp.code, hp.leaf, hp.rests, ?_, fun hs =>
        hp.unsettled (hunset hp.code hmv hs),
        fun y hy hyl hym => hset (hp.first y hy hyl hym)⟩
      rw [List.count_append, List.count_singleton,
        if_neg (by simpa using hmv.symm), hp.once]

section Token

variable (h : Frontier atoms rests t here trail pend)
  (hnext : here.progress.next? (t.children here.node) = some v)

include h hnext

/-- A token for which nothing was done to the document. -/
theorem visit_still (hleaf : t.isLeaf v = true) (hu : u.Consistent)
    (hdoc : u.document = t.document) (hc : t.count ≤ u.count) (still : Bool) :
    ∃ pend', Frontier atoms rests u
      { here with
        progress := here.progress.after v still (t.children here.node)
          (u.children here.node) }
      (trail ++ [v]) pend' := by
  have hs : t.Steady (fun _ => False) u :=
    .of_document_eq h.sound hu.sound hdoc hc
  have s : t.SameFile u := ⟨h.sound, hu.sound, hdoc⟩
  have h' := h.steady hs hu (fun _ hf => hf.elim) fun m hm =>
    ⟨fun _ => id, hdoc ▸ (h.pending m hm).rests⟩
  have hv := h.mem_next hnext
  have hparent : u.parent? v = some here.node :=
    (s.parent? hv).trans (h.parent_next hnext)
  have hkids : u.children here.node = t.children here.node :=
    s.children h.node.1
  -- The token was the one that waited, or none waits that is visited here:
  -- either way it does not wait any more.
  refine ⟨pend.filter (· != v), h'.mark (s.mem hv) ?_ ?_ ?_ ?_ ?_ ?_ ?_⟩
  · exact (hs.label v hv (s.mem hv)).2.trans hleaf
  · by_cases hp : pend = some v
    · exact Nat.le_of_eq (h.pending v hp).once
    · rw [List.count_eq_zero_of_not_mem (h.next_not_seen hnext hp)]
      exact Nat.zero_le 1
  · exact fun x hx => Progress.passed_after.mpr (Or.inl hx)
  · intro x _ hne hx hpassed
    rcases Progress.passed_after.mp hpassed with hpassed | heq | ⟨hout, hin⟩
    · exact hpassed
    · exact absurd heq hne
    · exact absurd (hkids ▸ List.mem_of_mem_take hin) hout
  · exact fun _ => Or.inr ⟨here.node, hparent,
      Or.inr (Or.inl ⟨rfl, Progress.passed_after.mpr (Or.inr (Or.inl rfl))⟩)⟩
  · intro m hmv hm
    rw [hm, Option.filter_some, if_pos (by simpa using hmv)]
  · intro m hm
    obtain ⟨hm, hmv⟩ := Option.filter_eq_some_iff.mp hm
    exact Or.inr ⟨hm, by simpa using hmv⟩

/-- A token of code that was not moved ahead is visited only when none is
pending: one that is pending would come after it. -/
theorem pend_eq_none (hcode : t.IsCode v) (hleaf : t.isLeaf v = true)
    (hp : pend ≠ some v) : pend = none := by
  cases hpend : pend with
  | none => rfl
  | some m =>
    have hm := h.pending m hpend
    rcases h.precedes_of_unsettled hnext hm.code hm.unsettled with rfl | hprec
    · exact absurd hpend hp
    · exact absurd (hm.first v hcode hleaf hprec) (h.next_unsettled hnext)

/-- What comes before the next child is settled. -/
theorem settled_of_precedes (hx : t.IsCode x)
    (hprec : t.document.Precedes x v) : here.Settled t trail x := by
  by_contra hun
  rcases h.precedes_of_unsettled hnext hx hun with rfl | hprec'
  · exact hprec.ne h.sound.nodup_document rfl
  · exact hprec.asymm h.sound.nodup_document hprec'

/-- A stage above that has passed a token has passed what is put right
behind it. -/
theorem passed_behind {z : NodeId} (hu : u.Sound) (hs : t.Steady (· = v) u)
    (hcode : t.IsCode v) (hleaf : t.isLeaf v = true) (ho : o ∈ here.outer)
    (hz : t.IsCode z) (hzl : t.isLeaf z = true) (hzv : t.document.Precedes z v)
    (hparent : u.parent? z = some o.node)
    (hbetween : ∀ d, u.IsCode d → d ≠ v → u.parent? d = u.parent? z →
      u.document.Precedes z d → u.document.Precedes v d) : o.Passed u v := by
  obtain ⟨hchild, hcl⟩ := h.child ho
  have hne : ∀ {x}, t.isLeaf x = true → o.child ≠ x := by
    rintro x hx rfl
    simp [hx] at hcl
  have hznv : z ≠ v := hzv.ne h.sound.nodup_document
  have hzt : t.parent? z = some o.node :=
    (hs.parent_of_isCode hz hznv).symm.trans hparent
  have hchildParent : u.parent? o.child = some o.node :=
    (hs.parent_of_isCode hchild (hne hleaf)).trans
      (h.nested.above h.sound ho).2.1
  -- the token is before the child, or it would come after all that is below
  -- the child
  have hzchild : t.document.Precedes z o.child := by
    rcases Forest.precedes_total h.sound.nodup_document hz.1 hchild.1
      (hne hzl).symm with hprec | hprec
    · exact hprec
    · exact absurd (h.precedes_of_child hnext ho hz.1 hzt hprec)
        (hzv.asymm h.sound.nodup_document)
  have hvchild : u.document.Precedes v o.child := by
    refine hbetween o.child (hs.isCode hchild) (hne hleaf)
      (hchildParent.trans hparent.symm) ?_
    exact (hs.precedes_iff h.sound hu hz hchild hznv (hne hleaf)).mpr hzchild
  by_cases hpassed : o.progress.passed v = true
  · exact Or.inl hpassed
  · refine Or.inr (Or.inr ⟨fun hbefore => ?_, hs.isCode hcode, hvchild⟩)
    have hahead := (h.ahead o ho v hbefore hcode (Bool.eq_false_iff.mpr hpassed)
      (hne hleaf).symm).1
    rw [h.parent_next hnext] at hahead
    exact h.node_ne ho (Option.some.inj hahead).symm

/-- A token that was put back is settled. -/
theorem settled_behind (hu : u.Sound) (hs : t.Steady (· = v) u)
    (hcode : t.IsCode v) (hleaf : t.isLeaf v = true) (hb : Tree.Behind v t u)
    {p : Progress} (hp : p.passed v = true) :
    Place.Settled { here with progress := p } u (trail ++ [v]) v := by
  obtain ⟨z, hz, hzl, hzv, hparent, hbetween⟩ := hb
  have hznv : z ≠ v := hzv.ne h.sound.nodup_document
  have hsettled := h.settled_of_precedes hnext hz hzv
  rw [← h.settled_steady_iff hs hu (fun m hm => hm ▸ hleaf) hz.1
    (hs.isCode hz).1 hznv] at hsettled
  rcases hsettled with rfl | ⟨q, hq,
    ⟨hdone, hclosed⟩ | ⟨hnode, -⟩ | ⟨o, ho, rfl, -⟩⟩
  · -- the root has something below it
    exact absurd (h.sound.eq_root_of_leaf hzl (h.mem_next hnext)).symm hznv
  · exact Or.inr ⟨q, hparent.trans hq,
      Or.inl ⟨List.mem_append_left _ hdone, hclosed⟩⟩
  · exact Or.inr ⟨q, hparent.trans hq, Or.inr (Or.inl ⟨hnode, hp⟩)⟩
  · exact Or.inr ⟨o.node, hparent.trans hq, Or.inr (Or.inr ⟨o, ho, rfl,
      h.passed_behind hnext hu hs hcode hleaf ho hz hzl hzv hq hbetween⟩)⟩

/-- A token of code: it stays, goes back and is settled, or goes ahead and
is pending. -/
theorem visit_token (hcode : t.IsCode v) (hleaf : t.isLeaf v = true)
    (hu : u.Consistent) (hl : Tree.Lands rests v t u) (still : Bool) :
    ∃ pend', Frontier atoms rests u
      { here with
        progress := here.progress.after v still (t.children here.node)
          (u.children here.node) }
      (trail ++ [v]) pend' := by
  -- The token that waits rests, so nothing happens to it.
  by_cases hpv : pend = some v
  · exact h.visit_still hnext hleaf hu (hl.resting (h.pending v hpv).rests)
      hl.steady.grows still
  have hnone := h.pend_eq_none hnext hcode hleaf hpv
  subst hnone
  have hnot := h.next_not_seen hnext hpv
  have hfree : ∀ m, m = v → t.isLeaf m = true ∧ t.parent? m = some here.node ∧
      m ∉ trail := by
    rintro m rfl
    exact ⟨hleaf, h.parent_next hnext, hnot⟩
  have h' := h.steady hl.steady hu hfree fun m hm => (nomatch hm)
  let p := here.progress.after v still (t.children here.node)
    (u.children here.node)
  have hp : p.passed v = true := Progress.passed_after.mpr (Or.inr (Or.inl rfl))
  have hmono : ∀ x, here.progress.passed x = true →
      p.passed x = true := fun x hx =>
    Progress.passed_after.mpr (Or.inl hx)
  -- Apart from the token only new white space is passed.
  have hback : ∀ x, u.IsCode x → x ≠ v → u.parent? x = some here.node →
      p.passed x = true →
      here.progress.passed x = true := by
    intro x hx hne hparent hpassed
    rcases Progress.passed_after.mp hpassed with hpassed | heq | ⟨hout, -⟩
    · exact hpassed
    · exact absurd heq hne
    · rw [hl.steady.parent_of_isCode (hl.steady.isCode_iff.mp hx) hne]
        at hparent
      exact absurd (h.sound.parent?_eq_some_iff.mp hparent) hout
  have hcount : trail.count v = 0 := List.count_eq_zero_of_not_mem hnot
  have hvu := hl.steady.isCode hcode
  have hlu := (hl.steady.isLeaf hcode).trans hleaf
  -- Where does the token stand now? If it is settled there, nothing waits.
  by_cases hset : Place.Settled { here with progress := p } u (trail ++ [v]) v
  · refine ⟨none, h'.mark hvu.1 hlu (by omega) hmono hback (fun _ => hset)
      (fun m _ hm => ?_) fun m hm => ?_⟩
    · exact (nomatch hm)
    · exact (nomatch hm)
  · -- It stayed, it went back, or it went ahead to rest: only the last
    -- leaves it unsettled.
    have hrests : rests u.document v := by
      rcases hl.place with hs | hb | hrests
      · refine absurd (Or.inr ⟨here.node, ?_, Or.inr (Or.inl ⟨rfl, hp⟩)⟩) hset
        exact (hs.parent_of_isCode hcode id).trans (h.parent_next hnext)
      · exact absurd (h.settled_behind hnext hu.sound hl.steady hcode
          hleaf hb hp) hset
      · exact hrests
    have hpending : Pending rests u
        { here with progress := p } (trail ++ [v]) v := by
      refine ⟨hvu, hlu, hrests, ?_, hset, fun y hy hyl hyv => ?_⟩
      · rw [List.count_append, List.count_singleton_self, hcount]
      · have hyt := hl.steady.isCode_iff.mp hy
        have hsettled := h.settled_of_precedes hnext hyt
          (hl.before y hy hyl hyv)
        have hne := hyv.ne hu.sound.nodup_document
        rw [← h.settled_steady_iff hl.steady hu.sound (fun m hm => hm ▸ hleaf)
          hyt.1 hy.1 hne] at hsettled
        exact hsettled.mono (hmono y) (List.subset_append_left _ _)
    refine ⟨some v, h'.mark hvu.1 hlu (by omega) hmono hback (fun hne =>
      absurd rfl hne) (fun m _ hm => ?_)
      fun m hm => ?_⟩
    · exact (nomatch hm)
    · cases hm
      exact Or.inl hpending

end Token

end Frontier

end TreeLint
