import TreeLint.Proofs.Forest.Lookup
import TreeLint.Tree.Basic
import Mathlib.Order.RelClasses

/-!
# Parents and children

A tree is sound if its forest holds every node that was ever created exactly
once, its outermost trees stand in the order of their roots, and the root of
the file is one of them. That is all it takes for the links between nodes to
agree with one another, as `Linked` lists it (`Sound.linked`): who is whose
parent, who is listed among whose children, and that the way up from any
node ends.

Specification, §3.
-/

namespace TreeLint.Tree

/-- Every node that was created is there once, and the outermost trees are
in order. -/
structure Sound (t : Tree) : Prop where
  nodup : t.forest.ids.Nodup
  mem_ids : ∀ n, n ∈ t.forest.ids ↔ n < t.count
  sorted : t.forest.roots.Pairwise (· < ·)
  root_mem : root ∈ t.forest.roots

/-- The links between the nodes of a tree agree with one another. -/
structure Linked (t : Tree) : Prop where
  /-- The nodes are those with a number below the count. -/
  contains_iff : ∀ n, t.contains n = true ↔ n < t.count
  parent_iff : ∀ c p, t.parent? c = some p ↔ c ∈ t.children p
  /-- A child is listed once and under one parent only. -/
  count_child : ∀ c p, c ∈ t.children p → (t.children p).count c = 1
  parent_unique : ∀ c p q, c ∈ t.children p → c ∈ t.children q → p = q
  /-- A child is found at its own index. -/
  child_at_index : ∀ c p, t.parent? c = some p →
    ∃ i, t.childIndex? c = some i ∧ (t.children p)[i]? = some c
  token_childless : ∀ n, t.isLeaf n = true → t.children n = []
  root_exists : t.contains root = true
  root_parentless : t.parent? root = none
  /-- Going up never comes back. -/
  ancestors_eq : ∀ n, t.ancestors n = (t.parent? n).elim [] fun p =>
    p :: t.ancestors p
  not_own_ancestor : ∀ n, n ∉ t.ancestors n
  chains_end : WellFounded fun p c => t.parent? c = some p
  /-- Links lead to nodes. -/
  parent_in_range : ∀ c p, t.parent? c = some p → c < t.count ∧ p < t.count
  child_in_range : ∀ c p, c ∈ t.children p → c < t.count ∧ p < t.count

variable {t : Tree} {n p c : NodeId}

theorem contains_iff_mem : t.contains n = true ↔ n ∈ t.forest.ids :=
  Forest.contains_iff_mem n t.forest

theorem children_eq_roots (t : Tree) (p : NodeId) :
    t.children p = (t.forest.offspring p).roots :=
  rfl

theorem subtree_of_subtree? {s : Forest} (h : t.forest.subtree? n = some s) :
    t.subtree n = s := by
  simp [subtree, h]

theorem parent?_eq_some_iff_ancestors? :
    t.parent? n = some p ↔ ∃ as, t.forest.ancestors? n = some (p :: as) := by
  unfold parent? ancestors
  cases t.forest.ancestors? n with
  | none => simp
  | some as => cases as <;> simp

theorem ancestors_of_parent? (h : t.forest.ids.Nodup)
    (hp : t.parent? n = some p) :
    t.ancestors n = p :: t.ancestors p := by
  obtain ⟨as, ha⟩ := parent?_eq_some_iff_ancestors?.mp hp
  have hup := Forest.ancestors?_of_cons h ha
  simp [ancestors, ha, hup]

theorem ancestors_of_parent?_eq_none (hp : t.parent? n = none) :
    t.ancestors n = [] := by
  simpa [parent?] using hp

/-- A parent has fewer nodes above it than its child: whoever goes from
parent to parent comes to an end. -/
theorem length_ancestors_lt (h : t.forest.ids.Nodup)
    (hp : t.parent? n = some p) :
    (t.ancestors p).length < (t.ancestors n).length := by
  rw [ancestors_of_parent? h hp]
  exact Nat.lt_succ_self _

/-- The way up from a node above is shorter. -/
theorem length_ancestors_lt_of_mem (h : t.forest.ids.Nodup) {a : NodeId}
    (ha : a ∈ t.ancestors n) :
    (t.ancestors a).length < (t.ancestors n).length := by
  induction hk : (t.ancestors n).length generalizing n with
  | zero => simp [List.length_eq_zero_iff.mp hk] at ha
  | succ k ih =>
    cases hp : t.parent? n with
    | none => simp [ancestors_of_parent?_eq_none hp] at ha
    | some p =>
      rw [ancestors_of_parent? h hp] at ha hk
      simp only [List.length_cons, Nat.add_right_cancel_iff] at hk
      rcases List.mem_cons.mp ha with rfl | ha
      · omega
      · have := ih ha hk
        omega

namespace Sound

/-- **Identities are handed out without gaps:** a node exists if its number
is below the count (specification, §3). -/
theorem contains_iff (h : t.Sound) : t.contains n = true ↔ n < t.count :=
  contains_iff_mem.trans (h.mem_ids n)

/-- **The two directions of a link agree:** the parent of a node is the one
that has it among its children. -/
theorem parent?_eq_some_iff (h : t.Sound) :
    t.parent? c = some p ↔ c ∈ t.children p :=
  parent?_eq_some_iff_ancestors?.trans (Forest.ancestors?_cons_iff h.nodup)

/-- Outermost are the nodes without a parent. -/
theorem mem_roots_iff (h : t.Sound) :
    n ∈ t.forest.roots ↔ t.contains n = true ∧ t.parent? n = none := by
  rw [← Forest.ancestors?_eq_nil_iff h.nodup, contains_iff_mem]
  constructor
  · intro ha
    exact ⟨Forest.mem_of_ancestors? ha, by simp [parent?, ancestors, ha]⟩
  · rintro ⟨hn, hp⟩
    obtain ⟨as, ha⟩ := Forest.exists_ancestors hn
    have has : as = [] := by simpa [parent?, ancestors, ha] using hp
    rw [ha, has]

/-- What is below a node are the node and those that have it above them. -/
theorem mem_descendants_iff_above (h : t.Sound) (hn : t.contains n = true)
    {m : NodeId} :
    m ∈ t.descendants n ↔ m = n ∨ n ∈ t.ancestors m := by
  obtain ⟨s, hs⟩ := Forest.exists_subtree (contains_iff_mem.mp hn)
  rw [descendants, subtree_of_subtree? hs]
  exact Forest.mem_subtree?_iff h.nodup hs

theorem nodup_children (h : t.Sound) (p : NodeId) : (t.children p).Nodup :=
  Forest.nodup_roots (Forest.nodup_offspring p h.nodup)

theorem parent_mem (h : t.Sound) (hp : t.parent? c = some p) :
    c < t.count ∧ p < t.count := by
  obtain ⟨as, ha⟩ := parent?_eq_some_iff_ancestors?.mp hp
  exact ⟨(h.mem_ids c).mp (Forest.mem_of_ancestors? ha),
    (h.mem_ids p).mp (Forest.ancestors?_subset ha List.mem_cons_self)⟩

theorem childIndex?_of_parent? (h : t.Sound) (hp : t.parent? c = some p) :
    ∃ i, t.childIndex? c = some i ∧ (t.children p)[i]? = some c := by
  have hc : c ∈ t.children p := h.parent?_eq_some_iff.mp hp
  have hsome : ((t.children p).idxOf? c).isSome := List.isSome_idxOf?.mpr hc
  obtain ⟨i, hi⟩ := Option.isSome_iff_exists.mp hsome
  obtain ⟨hlt, hget, -⟩ := List.idxOf?_eq_some_iff.mp hi
  refine ⟨i, ?_, ?_⟩
  · simpa only [childIndex?, siblings, hp] using hi
  · rw [List.getElem?_eq_getElem hlt, hget]

/-- **Links agree** in every sound tree. -/
theorem linked (h : t.Sound) : t.Linked where
  contains_iff _ := h.contains_iff
  parent_iff _ _ := h.parent?_eq_some_iff
  count_child c p hc := List.count_eq_one_of_mem (h.nodup_children p) hc
  parent_unique c p q hp hq := by
    rw [← h.parent?_eq_some_iff] at hp hq
    exact Option.some.inj (hp.symm.trans hq)
  child_at_index _ _ hp := h.childIndex?_of_parent? hp
  token_childless n hn := by
    simp only [isLeaf, tokenText?] at hn
    simp only [children]
    cases hs : t.subtree n <;>
      simp_all [Forest.rootText?, Forest.rootChildren, Forest.roots]
  root_exists := (h.mem_roots_iff.mp h.root_mem).1
  root_parentless := (h.mem_roots_iff.mp h.root_mem).2
  ancestors_eq n := by
    cases hp : t.parent? n with
    | none => exact ancestors_of_parent?_eq_none hp
    | some p => exact ancestors_of_parent? h.nodup hp
  not_own_ancestor n hn :=
    Nat.lt_irrefl _ (length_ancestors_lt_of_mem h.nodup hn)
  chains_end :=
    Subrelation.wf (fun hp => length_ancestors_lt h.nodup hp) (measure fun n =>
      (t.ancestors n).length).wf
  parent_in_range _ _ hp := h.parent_mem hp
  child_in_range _ _ hc := h.parent_mem (h.parent?_eq_some_iff.mpr hc)

end Sound

end TreeLint.Tree
