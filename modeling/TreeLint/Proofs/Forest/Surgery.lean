import TreeLint.Forest.Edit
import TreeLint.Proofs.Forest.Lookup
import Mathlib.Data.List.Perm.Basic

/-!
# Taking trees out of a forest and putting them in

What the changes of `TreeLint.Forest.Edit` do to the nodes, to the outermost
trees and to what look-ups find. No change loses or copies a label
(`labels_remove`, `labels_insertUnder`, `labels_place`), and a node away
from the change is found with the subtree it had (`subtree?_remove`,
`subtree?_place`).

Specification, §3: edits in place, none of which makes or loses a node.
-/

namespace TreeLint.Forest

variable {f g s : Forest} {n p : NodeId}

/-! ## Labels -/

/-- The identity, the kind and, for tokens, the text of every node, in
pre-order. -/
def labels : Forest → List (NodeId × Kind × Option String)
  | .nil => []
  | .token i k t r => (i, k, some t) :: r.labels
  | .node i k c r => (i, k, none) :: (c.labels ++ r.labels)

theorem map_fst_labels (f : Forest) : f.labels.map Prod.fst = f.ids := by
  induction f with
  | nil => rfl
  | token i k t r ih => simp [labels, ids, ih]
  | node i k c r ihc ihr => simp [labels, ids, ihc, ihr]

theorem labels_append (f g : Forest) :
    (f.append g).labels = f.labels ++ g.labels := by
  induction f with
  | nil => rfl
  | token i k t r ih => simp [append, labels, ih]
  | node i k c r _ ih => simp [append, labels, ih]

/-- Forests with the same labels have the same nodes. -/
theorem ids_perm_of_labels_perm (h : f.labels.Perm g.labels) :
    f.ids.Perm g.ids := by
  rw [← map_fst_labels f, ← map_fst_labels g]
  exact h.map Prod.fst

/-! ## Changes that find nothing to do -/

theorem remove_of_not_mem (h : n ∉ f.ids) : f.remove n = f := by
  induction f with
  | nil => rfl
  | token i k t r ih =>
    simp only [ids, List.mem_cons, not_or] at h
    rw [remove, if_neg (Ne.symm h.1), ih h.2]
  | node i k c r ihc ihr =>
    simp only [ids, List.mem_cons, List.mem_append, not_or] at h
    rw [remove, if_neg (Ne.symm h.1), ihc h.2.1, ihr h.2.2]

/-- Putting something under a node that is not there changes nothing. -/
theorem insertUnder_of_not_mem (i : Nat) (s : Forest) (h : p ∉ f.ids) :
    insertUnder p i s f = f := by
  induction f with
  | nil => rfl
  | token j k t r ih =>
    simp only [ids, List.mem_cons, not_or] at h
    rw [insertUnder, ih h.2]
  | node j k c r ihc ihr =>
    simp only [ids, List.mem_cons, List.mem_append, not_or] at h
    rw [insertUnder, if_neg (Ne.symm h.1), ihc h.2.1, ihr h.2.2]

/-- Nor does a new text for a token that is not there. -/
theorem setText_of_not_mem (x : String) (h : n ∉ f.ids) :
    f.setText n x = f := by
  induction f with
  | nil => rfl
  | token j k t r ih =>
    simp only [ids, List.mem_cons, not_or] at h
    rw [setText, if_neg (Ne.symm h.1), ih h.2]
  | node j k c r ihc ihr =>
    simp only [ids, List.mem_cons, List.mem_append, not_or] at h
    rw [setText, ihc h.2.1, ihr h.2.2]

/-! ## Labels after a change

The three ways to reach the place of a change in a forest: past a root, into
its children, past its children. -/

theorem perm_past_root {α : Type} {l s m : List α} (x : α)
    (h : l.Perm (s ++ m)) :
    (x :: l).Perm (s ++ x :: m) :=
  (h.cons x).trans List.perm_middle.symm

theorem perm_into_children {α : Type} {l s m : List α} (x : α) (r : List α)
    (h : l.Perm (s ++ m)) :
    (x :: (l ++ r)).Perm (s ++ x :: (m ++ r)) := by
  apply perm_past_root
  rw [← List.append_assoc]
  exact h.append_right r

theorem perm_past_children {α : Type} {l s m : List α} (x : α) (c : List α)
    (h : l.Perm (s ++ m)) :
    (x :: (c ++ l)).Perm (s ++ x :: (c ++ m)) := by
  apply perm_past_root
  exact (h.append_left c).trans (List.perm_append_comm_assoc _ _ _)

/-- A composite node stands there. -/
def IsComposite (p : NodeId) (f : Forest) : Prop :=
  ∃ k c, f.subtree? p = some (.node p k c .nil)

theorem IsComposite.mem (h : f.IsComposite p) : p ∈ f.ids := by
  obtain ⟨_, _, h⟩ := h
  exact mem_of_subtree? h

/-- Putting a tree among the outermost ones adds its labels and no others.
-/
theorem labels_insertAt (s : Forest) (i : Nat) (f : Forest) :
    (insertAt s i f).labels.Perm (s.labels ++ f.labels) := by
  induction f generalizing i with
  | nil => cases i <;> simp [insertAt, append_nil, labels]
  | token j k t r ih =>
    cases i with
    | zero => simp [insertAt, labels_append]
    | succ i => exact perm_past_root _ (ih i)
  | node j k c r _ ih =>
    cases i with
    | zero => simp [insertAt, labels_append]
    | succ i => exact perm_past_children _ _ (ih i)

/-- The same where the place is given by the order of the roots. -/
theorem labels_place (n : NodeId) (s f : Forest) :
    (place n s f).labels.Perm (s.labels ++ f.labels) := by
  induction f with
  | nil => simp [place, labels]
  | token j k t r ih =>
    simp only [place]
    split
    · simp [labels_append]
    · exact perm_past_root _ ih
  | node j k c r _ ih =>
    simp only [place]
    split
    · simp [labels_append]
    · exact perm_past_children _ _ ih

/-- A composite node is not a token, so it stands behind the token. -/
theorem isComposite_token {i : NodeId} {k : Kind} {t : String} {r : Forest}
    (h : (Forest.token i k t r).IsComposite p) : r.IsComposite p := by
  obtain ⟨k', c', h⟩ := h
  simp only [subtree?] at h
  split at h
  · cases h
  · exact ⟨k', c', h⟩

/-- A composite node is the root, or below it, or behind it. -/
theorem isComposite_node {i : NodeId} {k : Kind} {c r : Forest}
    (h : (Forest.node i k c r).IsComposite p) :
    i = p ∨ c.IsComposite p ∨ p ∉ c.ids ∧ r.IsComposite p := by
  obtain ⟨k', c', h⟩ := h
  simp only [subtree?] at h
  split at h
  · next hi => exact Or.inl hi
  · rcases Option.or_eq_some_iff.mp h with h | ⟨hc, h⟩
    · exact Or.inr (Or.inl ⟨k', c', h⟩)
    · exact Or.inr (Or.inr ⟨(subtree?_eq_none_iff p c).mp hc, k', c', h⟩)

/-- **Nothing is lost when a tree is put under a node.** The node has to be
there and able to have children. -/
theorem labels_insertUnder (i : Nat) (s : Forest) (h : f.ids.Nodup)
    (hp : f.IsComposite p) :
    (insertUnder p i s f).labels.Perm (s.labels ++ f.labels) := by
  induction f with
  | nil => exact absurd hp.mem (by simp [ids])
  | token j k t r ih =>
    exact perm_past_root _ (ih (nodup_token.mp h).2 (isComposite_token hp))
  | node j k c r ihc ihr =>
    obtain ⟨_, _, hc, hr, hd⟩ := nodup_node.mp h
    simp only [insertUnder]
    split
    · exact perm_into_children _ _ (labels_insertAt s i c)
    · next hj =>
      rcases (isComposite_node hp).resolve_left hj with hpc | ⟨hpc, hpr⟩
      · have hpr : p ∉ r.ids := fun hm => hd hpc.mem hm
        rw [insertUnder_of_not_mem i s hpr]
        exact perm_into_children _ _ (ihc hc hpc)
      · rw [insertUnder_of_not_mem i s hpc]
        exact perm_past_children _ _ (ihr hr hpr)

/-- **Nothing is lost when a tree is taken out:** the labels are those of
the tree and those of the rest. -/
theorem labels_remove (h : f.ids.Nodup) (hs : f.subtree? n = some s) :
    f.labels.Perm (s.labels ++ (f.remove n).labels) := by
  -- By induction on the forest. On the way to the tree its labels are moved
  -- in front of what is passed.
  induction f with
  | nil => simp [subtree?] at hs
  | token j k t r ih =>
    simp only [subtree?] at hs
    simp only [remove]
    split at hs
    · cases hs
      simp [labels, *]
    · next hj =>
      rw [if_neg hj]
      exact perm_past_root _ (ih (nodup_token.mp h).2 hs)
  | node j k c r ihc ihr =>
    obtain ⟨_, _, hc, hr, hd⟩ := nodup_node.mp h
    simp only [subtree?] at hs
    simp only [remove]
    split at hs
    · cases hs
      simp [labels, *]
    · next hj =>
      rw [if_neg hj]
      rcases Option.or_eq_some_iff.mp hs with hs | ⟨hnone, hs⟩
      · have hnr : n ∉ r.ids := fun hm => hd (mem_of_subtree? hs) hm
        rw [remove_of_not_mem hnr]
        exact perm_into_children _ _ (ihc hc hs)
      · rw [remove_of_not_mem ((subtree?_eq_none_iff n c).mp hnone)]
        exact perm_past_children _ _ (ihr hr hs)

/-- What is taken out and what is left have no node in common, and neither
holds a node twice. -/
theorem nodup_remove (h : f.ids.Nodup) (hs : f.subtree? n = some s) :
    s.ids.Nodup ∧ (f.remove n).ids.Nodup ∧ s.ids.Disjoint (f.remove n).ids := by
  have hperm : f.ids.Perm (s.append (f.remove n)).ids :=
    ids_perm_of_labels_perm (by rw [labels_append]; exact labels_remove h hs)
  rw [ids_append] at hperm
  exact List.nodup_append'.mp (hperm.nodup h)

theorem mem_ids_of_roots_eq (h : s.roots = [n]) : n ∈ s.ids :=
  mem_ids_of_mem_roots (by simp [h])

theorem not_mem_remove (h : f.ids.Nodup) : n ∉ (f.remove n).ids := by
  by_cases hn : n ∈ f.ids
  · obtain ⟨s, hs⟩ := exists_subtree hn
    exact fun hm => (nodup_remove h hs).2.2
      (mem_ids_of_roots_eq (roots_subtree? hs)) hm
  · rwa [remove_of_not_mem hn]

/-- In a forest that holds no node twice, the labels are what looking a node
up finds. -/
theorem mem_labels_iff {k : Kind} {x : Option String} (h : f.ids.Nodup) :
    (n, k, x) ∈ f.labels ↔ ∃ s, f.subtree? n = some s ∧ s.rootKind? = some k ∧
      s.rootText? = x := by
  -- The label of a node is that of the root of its tree.
  have hfound : ∀ {s}, f.subtree? n = some s →
      ∃ k x, s.rootKind? = some k ∧ s.rootText? = x ∧ (n, k, x) ∈ f.labels := by
    intro s hs
    have hsub : s.labels ⊆ f.labels := fun l hl =>
      (labels_remove h hs).mem_iff.mpr (List.mem_append_left _ hl)
    rcases eq_of_roots_eq_singleton (roots_subtree? hs) with ⟨k, t,
      rfl⟩ | ⟨k, c, rfl⟩
    · exact ⟨k, some t, rfl, rfl, hsub (by simp [labels])⟩
    · exact ⟨k, none, rfl, rfl, hsub (by simp [labels])⟩
  constructor
  · intro hm
    have hn : n ∈ f.ids := by
      rw [← map_fst_labels]
      exact List.mem_map_of_mem hm
    obtain ⟨s, hs⟩ := exists_subtree hn
    obtain ⟨k', x', hk, hx, hm'⟩ := hfound hs
    -- No identity has two labels.
    have heq : (n, k', x') = (n, k, x) :=
      List.inj_on_of_nodup_map (map_fst_labels f ▸ h) hm' hm rfl
    cases heq
    exact ⟨s, hs, hk, hx⟩
  · rintro ⟨s, hs, hk, hx⟩
    obtain ⟨k', x', hk', hx', hm⟩ := hfound hs
    rw [hk, Option.some.injEq] at hk'
    rw [hx] at hx'
    rwa [hk', hx']

/-- A node is composite if its label has no text. -/
theorem isComposite_iff_mem_labels (h : f.ids.Nodup) :
    f.IsComposite p ↔ ∃ k, (p, k, none) ∈ f.labels := by
  simp only [mem_labels_iff h]
  constructor
  · rintro ⟨k, c, hs⟩
    exact ⟨k, _, hs, rfl, rfl⟩
  · rintro ⟨k, s, hs, hk, hx⟩
    rcases eq_of_roots_eq_singleton (roots_subtree? hs) with ⟨k, t,
      rfl⟩ | ⟨k, c, rfl⟩
    · simp [rootText?] at hx
    · exact ⟨k, c, hs⟩

/-! ## Outermost trees after a change -/

theorem roots_remove (n : NodeId) (f : Forest) :
    (f.remove n).roots = f.roots.erase n := by
  induction f with
  | nil => rfl
  | token i k t r ih => by_cases h : i = n <;> simp [remove, roots, h, ih]
  | node i k c r _ ih => by_cases h : i = n <;> simp [remove, roots, h, ih]

theorem roots_insertUnder (p : NodeId) (i : Nat) (s f : Forest) :
    (insertUnder p i s f).roots = f.roots := by
  induction f with
  | nil => rfl
  | token j k t r ih => simp [insertUnder, roots, ih]
  | node j k c r _ ih => by_cases h : j = p <;> simp [insertUnder, roots, h, ih]

theorem roots_insertAt (s : Forest) (i : Nat) (f : Forest) :
    (insertAt s i f).roots = f.roots.take i ++ s.roots ++ f.roots.drop i := by
  induction f generalizing i with
  | nil => cases i <;> simp [insertAt, append_nil, roots]
  | token j k t r ih => cases i <;> simp [insertAt, roots, ih]
  | node j k c r _ ih => cases i <;> simp [insertAt, roots, ih]

/-- A tree that is put in its place is outermost, and the others stay so. -/
theorem mem_roots_place (m n : NodeId) (s f : Forest) :
    m ∈ (place n s f).roots ↔ m ∈ s.roots ∨ m ∈ f.roots := by
  induction f with
  | nil => simp [place, roots]
  | token j k t r ih =>
    simp only [place]
    split <;> simp [roots, ih]
    tauto
  | node j k c r _ ih =>
    simp only [place]
    split <;> simp [roots, ih]
    tauto

/-- Trees stay in the order of their roots. -/
theorem sorted_roots_place (hs : s.roots = [n]) (hf : f.roots.Pairwise (· < ·))
    (hn : n ∉ f.roots) :
    (place n s f).roots.Pairwise (· < ·) := by
  -- A tree that does not come first leaves the first root where it is.
  have hstep : ∀ {j : NodeId} {r : Forest}, (j :: r.roots).Pairwise (· < ·) →
      n ∉ j :: r.roots →
      ¬ n < j → (place n s r).roots.Pairwise (· < ·) →
      (j :: (place n s r).roots).Pairwise (· < ·) := by
    intro j r hf hn hj ih
    refine List.pairwise_cons.mpr ⟨fun m hm => ?_, ih⟩
    rcases (mem_roots_place m n s r).mp hm with hm | hm
    · obtain rfl : m = n := by simpa [hs] using hm
      have hne : j ≠ m := fun h => hn (h ▸ List.mem_cons_self)
      exact Nat.lt_of_le_of_ne (Nat.not_lt.mp hj) hne
    · exact List.rel_of_pairwise_cons hf hm
  -- A tree that comes first is followed by greater roots only.
  have hfront : ∀ {j : NodeId} {r : Forest},
      (j :: r.roots).Pairwise (· < ·) → n < j →
      (n :: j :: r.roots).Pairwise (· < ·) := by
    intro j r hf hj
    refine List.pairwise_cons.mpr ⟨fun m hm => ?_, hf⟩
    rcases List.mem_cons.mp hm with rfl | hm
    · exact hj
    · exact Nat.lt_trans hj (List.rel_of_pairwise_cons hf hm)
  induction f with
  | nil => simp [place, hs]
  | token j k t r ih =>
    simp only [place]
    split
    · next hj => simpa [hs, roots] using hfront hf hj
    · next hj =>
      exact hstep hf hn hj (ih hf.of_cons fun hm =>
        hn (List.mem_cons_of_mem _ hm))
  | node j k c r _ ih =>
    simp only [place]
    split
    · next hj => simpa [hs, roots] using hfront hf hj
    · next hj =>
      exact hstep hf hn hj (ih hf.of_cons fun hm =>
        hn (List.mem_cons_of_mem _ hm))

/-! ## What look-ups find after a change -/

theorem subtree?_of_roots_eq (h : s.roots = [n]) : s.subtree? n = some s := by
  rcases eq_of_roots_eq_singleton h with ⟨k, t, rfl⟩ | ⟨k, c, rfl⟩ <;>
    simp [subtree?]

/-- What was put among the outermost trees is found there. -/
theorem subtree?_insertAt_self (i : Nat) (hs : s.roots = [n]) (hn : n ∉ f.ids) :
    (insertAt s i f).subtree? n = some s := by
  induction f generalizing i with
  | nil => cases i <;> simp [insertAt, append_nil, subtree?_of_roots_eq hs]
  | token j k t r ih =>
    simp only [ids, List.mem_cons, not_or] at hn
    cases i with
    | zero => simp [insertAt, subtree?_append, subtree?_of_roots_eq hs]
    | succ i => simp [insertAt, subtree?, Ne.symm hn.1, ih i hn.2]
  | node j k c r _ ih =>
    simp only [ids, List.mem_cons, List.mem_append, not_or] at hn
    cases i with
    | zero => simp [insertAt, subtree?_append, subtree?_of_roots_eq hs]
    | succ i =>
      simp [insertAt, subtree?, Ne.symm hn.1,
        (subtree?_eq_none_iff n c).mpr hn.2.1, ih i hn.2.2]

/-- What was put under a node is found whole. -/
theorem subtree?_insertUnder_self (i : Nat) (hs : s.roots = [n])
    (hn : n ∉ f.ids) (hp : f.IsComposite p) :
    (insertUnder p i s f).subtree? n = some s := by
  induction f with
  | nil => exact absurd hp.mem (by simp [ids])
  | token j k t r ih =>
    simp only [ids, List.mem_cons, not_or] at hn
    simp [insertUnder, subtree?, Ne.symm hn.1, ih hn.2 (isComposite_token hp)]
  | node j k c r ihc ihr =>
    simp only [ids, List.mem_cons, List.mem_append, not_or] at hn
    obtain ⟨hnj, hnc, hnr⟩ := hn
    by_cases hj : j = p
    · simp [insertUnder, hj, subtree?, hj ▸ Ne.symm hnj,
        subtree?_insertAt_self i hs hnc]
    · simp only [insertUnder, hj, if_false, subtree?, Ne.symm hnj]
      rcases (isComposite_node hp).resolve_left hj with hpc | ⟨hpc, hpr⟩
      · rw [ihc hnc hpc, Option.some_or]
      · rw [insertUnder_of_not_mem i s hpc, (subtree?_eq_none_iff n c).mpr hnc,
          ihr hnr hpr,
          Option.none_or]

/-- The node under which something was put has it among its children, at the
index. -/
theorem subtree?_insertUnder_parent (i : Nat) (s : Forest) {k : Kind}
    {c : Forest} (hp : f.subtree? p = some (.node p k c .nil)) :
    (insertUnder p i s f).subtree? p =
      some (.node p k (insertAt s i c) .nil) := by
  induction f with
  | nil => simp [subtree?] at hp
  | token j k' t r ih =>
    simp only [subtree?] at hp
    split at hp
    · cases hp
    · next hj => simp [insertUnder, subtree?, hj, ih hp]
  | node j k' c' r ihc ihr =>
    simp only [subtree?] at hp
    split at hp
    · next hj =>
      cases hp
      simp [insertUnder, subtree?]
    · next hj =>
      simp only [insertUnder, if_neg hj, subtree?]
      rcases Option.or_eq_some_iff.mp hp with hp | ⟨hnone, hp⟩
      · rw [ihc hp, Option.some_or]
      · rw [insertUnder_of_not_mem i s ((subtree?_eq_none_iff p c').mp hnone),
          hnone, ihr hp,
          Option.none_or]

/-- A tree put among the outermost ones hides nothing of the others. -/
theorem subtree?_place (m n : NodeId) (s f : Forest) (hm : m ∉ s.ids) :
    (place n s f).subtree? m = f.subtree? m := by
  have hs : s.subtree? m = none := (subtree?_eq_none_iff m s).mpr hm
  induction f with
  | nil => simp [place, hs, subtree?]
  | token j k t r ih =>
    simp only [place]
    split
    · rw [subtree?_append, hs, Option.none_or]
    · simp only [subtree?, ih]
  | node j k c r _ ih =>
    simp only [place]
    split
    · rw [subtree?_append, hs, Option.none_or]
    · simp only [subtree?, ih]

/-- A tree that was put in its place is found there. -/
theorem subtree?_place_self (hs : s.roots = [n]) (hn : n ∉ f.ids) :
    (place n s f).subtree? n = some s := by
  induction f with
  | nil => exact subtree?_of_roots_eq hs
  | token j k t r ih =>
    simp only [ids, List.mem_cons, not_or] at hn
    simp only [place]
    split
    · rw [subtree?_append, subtree?_of_roots_eq hs, Option.some_or]
    · simp [subtree?, Ne.symm hn.1, ih hn.2]
  | node j k c r _ ih =>
    simp only [ids, List.mem_cons, List.mem_append, not_or] at hn
    simp only [place]
    split
    · rw [subtree?_append, subtree?_of_roots_eq hs, Option.some_or]
    · simp [subtree?, Ne.symm hn.1,
        (subtree?_eq_none_iff n c).mpr hn.2.1, ih hn.2.2]

theorem map_remove_subtree? (m : NodeId) (h : n ∉ f.ids) :
    (f.subtree? m).map (remove n) = f.subtree? m := by
  cases hm : f.subtree? m with
  | none => rfl
  | some s =>
    rw [Option.map_some, remove_of_not_mem fun hn =>
      h (ids_subtree?_subset hm hn)]

/-- A node outside the tree that is taken out keeps its own subtree, less
that tree. -/
theorem subtree?_remove {m : NodeId} (h : f.ids.Nodup)
    (hs : f.subtree? n = some s) (hm : m ∉ s.ids) :
    (f.remove n).subtree? m = (f.subtree? m).map (remove n) := by
  have hmn : n ≠ m := fun h => hm (h ▸ mem_ids_of_roots_eq (roots_subtree? hs))
  induction f with
  | nil => rfl
  | token j k t r ih =>
    obtain ⟨hj', hr⟩ := nodup_token.mp h
    simp only [subtree?] at hs
    split at hs
    · next hj =>
      subst hj
      simp [remove, subtree?, hmn, map_remove_subtree? m hj']
    · next hj =>
      by_cases hjm : j = m
      · simp [remove, subtree?, hjm, hmn.symm]
      · simp [remove, subtree?, hj, hjm, ih hr hs]
  | node j k c r ihc ihr =>
    obtain ⟨_, hjr, hc, hr, hd⟩ := nodup_node.mp h
    simp only [subtree?] at hs
    split at hs
    · next hj =>
      cases hs
      subst hj
      simp only [ids, List.append_nil, List.mem_cons, not_or] at hm
      simp [remove, subtree?, hmn, (subtree?_eq_none_iff m c).mpr hm.2,
        map_remove_subtree? m hjr]
    · next hj =>
      by_cases hjm : j = m
      · simp [remove, subtree?, hjm, hmn.symm]
      · simp only [remove, if_neg hj, subtree?, if_neg hjm, Option.map_or]
        -- The tree that is taken out is among the children or behind, and
        -- the search for the other one is unaffected in the other part.
        rcases Option.or_eq_some_iff.mp hs with hs | ⟨hnone, hs⟩
        · have hnr : n ∉ r.ids := fun hn => hd (mem_of_subtree? hs) hn
          rw [ihc hc hs, remove_of_not_mem hnr, map_remove_subtree? m hnr]
        · have hnc : n ∉ c.ids := (subtree?_eq_none_iff n c).mp hnone
          rw [ihr hr hs, remove_of_not_mem hnc, map_remove_subtree? m hnc]

end TreeLint.Forest
