import TreeLint.Proofs.Forest.Surgery

/-!
# Changes of a forest that undo each other

Putting a tree in and taking it out are inverse to each other:
`remove_insertUnder` and `insertUnder_remove` below a node, `remove_place`
and `place_remove` among the outermost trees, `setText_setText` and
`setText_self` for texts. The last section is about trees that stand behind
all others: no change before them sees them.

A rollback takes journaled changes back one by one (specification, §4.3),
and these equations are what makes it exact.
-/

namespace TreeLint.Forest

variable {f g s : Forest} {n p : NodeId}

/-! ## Putting in and taking out again -/

theorem remove_append_tree (hs : s.roots = [n]) (f : Forest) :
    (s.append f).remove n = f := by
  rcases eq_of_roots_eq_singleton hs with ⟨k, t, rfl⟩ | ⟨k, c, rfl⟩ <;>
    simp [append, remove]

/-- **Put in, taken out again:** nothing happened, at whatever index. -/
theorem remove_insertAt (i : Nat) (hs : s.roots = [n]) (hn : n ∉ f.ids) :
    (insertAt s i f).remove n = f := by
  induction f generalizing i with
  | nil =>
    have := remove_append_tree hs .nil
    rw [append_nil] at this
    cases i <;> simp [insertAt, append_nil, this]
  | token j k t r ih =>
    simp only [ids, List.mem_cons, not_or] at hn
    cases i with
    | zero => exact remove_append_tree hs _
    | succ i => simp [insertAt, remove, Ne.symm hn.1, ih i hn.2]
  | node j k c r _ ih =>
    simp only [ids, List.mem_cons, List.mem_append, not_or] at hn
    cases i with
    | zero => exact remove_append_tree hs _
    | succ i =>
      simp [insertAt, remove, Ne.symm hn.1, remove_of_not_mem hn.2.1,
        ih i hn.2.2]

/-- The same for a tree put under a node. -/
theorem remove_insertUnder (p : NodeId) (i : Nat) (hs : s.roots = [n])
    (hn : n ∉ f.ids) :
    (insertUnder p i s f).remove n = f := by
  induction f with
  | nil => rfl
  | token j k t r ih =>
    simp only [ids, List.mem_cons, not_or] at hn
    simp [insertUnder, remove, Ne.symm hn.1, ih hn.2]
  | node j k c r ihc ihr =>
    simp only [ids, List.mem_cons, List.mem_append, not_or] at hn
    obtain ⟨hnj, hnc, hnr⟩ := hn
    by_cases hj : j = p
    · simp [insertUnder, if_pos hj, remove, Ne.symm hnj,
        remove_insertAt i hs hnc,
        remove_of_not_mem hnr]
    · simp [insertUnder, if_neg hj, remove, Ne.symm hnj, ihc hnc, ihr hnr]

/-- And for one put in its place among the outermost ones. -/
theorem remove_place (hs : s.roots = [n]) (hn : n ∉ f.ids) :
    (place n s f).remove n = f := by
  induction f with
  | nil =>
    have := remove_append_tree hs .nil
    rwa [append_nil] at this
  | token j k t r ih =>
    simp only [ids, List.mem_cons, not_or] at hn
    simp only [place]
    split
    · exact remove_append_tree hs _
    · simp [remove, Ne.symm hn.1, ih hn.2]
  | node j k c r _ ih =>
    simp only [ids, List.mem_cons, List.mem_append, not_or] at hn
    simp only [place]
    split
    · exact remove_append_tree hs _
    · simp [remove, Ne.symm hn.1, remove_of_not_mem hn.2.1, ih hn.2.2]

/-! ## Taking out and putting in again -/

/-- **Taken out, put in again at its old index:** nothing happened. -/
theorem insertAt_remove {i : Nat} (h : f.ids.Nodup) (hs : f.subtree? n = some s)
    (hi : f.roots[i]? = some n) : insertAt s i (f.remove n) = f := by
  -- The root itself is the case `i = 0`; behind it the index goes down by
  -- one.
  induction f generalizing i with
  | nil => simp [roots] at hi
  | token j k t r ih =>
    obtain ⟨hj, hr⟩ := nodup_token.mp h
    cases i with
    | zero =>
      obtain rfl : j = n := by simpa [roots] using hi
      obtain rfl : .token j k t .nil = s := by simpa [subtree?] using hs
      simp [remove, insertAt, append]
    | succ i =>
      have hn : r.roots[i]? = some n := by simpa [roots] using hi
      have hne : j ≠ n := fun h =>
        hj (h ▸ mem_ids_of_mem_roots (List.mem_of_getElem? hn))
      have hs : r.subtree? n = some s := by simpa [subtree?, hne] using hs
      simp [remove, hne, insertAt, ih hr hs hn]
  | node j k c r _ ih =>
    obtain ⟨_, hj, _, hr, hd⟩ := nodup_node.mp h
    cases i with
    | zero =>
      obtain rfl : j = n := by simpa [roots] using hi
      obtain rfl : .node j k c .nil = s := by simpa [subtree?] using hs
      simp [remove, insertAt, append]
    | succ i =>
      have hn : r.roots[i]? = some n := by simpa [roots] using hi
      have hnr : n ∈ r.ids := mem_ids_of_mem_roots (List.mem_of_getElem? hn)
      have hne : j ≠ n := fun h => hj (h ▸ hnr)
      have hnc : n ∉ c.ids := fun hm => hd hm hnr
      have hs : r.subtree? n = some s := by
        simpa [subtree?, hne, (subtree?_eq_none_iff n c).mpr hnc] using hs
      simp [remove, hne, remove_of_not_mem hnc, insertAt, ih hr hs hn]

/-- The same for a child of a node, at the index it had there. -/
theorem insertUnder_remove {i : Nat} (h : f.ids.Nodup)
    (hs : f.subtree? n = some s) (hi : (f.offspring p).roots[i]? = some n) :
    insertUnder p i s (f.remove n) = f := by
  -- By induction on the forest, along the search for `p`. The tree is below
  -- `p`, so whatever the search passes has neither.
  induction f with
  | nil => simp [offspring, subtree?, rootChildren, roots] at hi
  | token j k t r ih =>
    obtain ⟨hj, hr⟩ := nodup_token.mp h
    rw [offspring_token] at hi
    split at hi
    · simp [roots] at hi
    · have hn := ids_offspring_subset p r
        (mem_ids_of_mem_roots (List.mem_of_getElem? hi))
      have hne : j ≠ n := fun h => hj (h ▸ hn)
      have hs : r.subtree? n = some s := by simpa [subtree?, hne] using hs
      simp [remove, hne, insertUnder, ih hr hs hi]
  | node j k c r ihc ihr =>
    obtain ⟨hjc, hjr, hc, hr, hd⟩ := nodup_node.mp h
    rw [offspring_node] at hi
    split at hi
    · next hj =>
      have hn : n ∈ c.ids := mem_ids_of_mem_roots (List.mem_of_getElem? hi)
      have hne : j ≠ n := fun h => hjc (h ▸ hn)
      have hs : c.subtree? n = some s := by
        simpa [subtree?, hne, (subtree?_eq_none_iff n r).mpr fun hm =>
          hd hn hm] using hs
      rw [remove, if_neg hne, remove_of_not_mem fun hm => hd hn hm,
        insertUnder, if_pos hj,
        insertAt_remove hc hs hi]
    · next hj =>
      split at hi
      · next hp =>
        have hn := ids_offspring_subset p c
          (mem_ids_of_mem_roots (List.mem_of_getElem? hi))
        have hne : j ≠ n := fun h => hjc (h ▸ hn)
        have hs : c.subtree? n = some s := by
          simpa [subtree?, hne, (subtree?_eq_none_iff n r).mpr fun hm =>
            hd hn hm] using hs
        rw [remove, if_neg hne, remove_of_not_mem fun hm => hd hn hm,
          insertUnder, if_neg hj,
          ihc hc hs hi, insertUnder_of_not_mem i s fun hm => hd hp hm]
      · next hp =>
        have hn := ids_offspring_subset p r
          (mem_ids_of_mem_roots (List.mem_of_getElem? hi))
        have hne : j ≠ n := fun h => hjr (h ▸ hn)
        have hnc : n ∉ c.ids := fun hm => hd hm hn
        have hs : r.subtree? n = some s := by
          simpa [subtree?, hne, (subtree?_eq_none_iff n c).mpr hnc] using hs
        rw [remove, if_neg hne, remove_of_not_mem hnc, insertUnder, if_neg hj,
          ihr hr hs hi,
          insertUnder_of_not_mem i s hp]

/-- An outermost tree that is taken out finds its place again by the order
of the roots. -/
theorem place_remove (h : f.ids.Nodup) (hf : f.roots.Pairwise (· < ·))
    (hn : n ∈ f.roots) (hs : f.subtree? n = some s) :
    place n s (f.remove n) = f := by
  -- Where all other roots are greater the tree goes to the front.
  have hfront : ∀ {r : Forest}, (n :: r.roots).Pairwise (· < ·) →
      place n s r = s.append r := by
    intro r hr
    cases r with
    | nil => simp [place, append_nil]
    | token j k t r =>
      simp [place, List.rel_of_pairwise_cons hr List.mem_cons_self]
    | node j k c r =>
      simp [place, List.rel_of_pairwise_cons hr List.mem_cons_self]
  induction f with
  | nil => simp [roots] at hn
  | token j k t r ih =>
    obtain ⟨hj, hr⟩ := nodup_token.mp h
    by_cases hne : j = n
    · subst hne
      obtain rfl : .token j k t .nil = s := by simpa [subtree?] using hs
      simp [remove, hfront hf, append]
    · have hn : n ∈ r.roots := by simpa [roots, Ne.symm hne] using hn
      have hlt : j < n := List.rel_of_pairwise_cons hf hn
      have hs : r.subtree? n = some s := by simpa [subtree?, hne] using hs
      simp [remove, hne, place, Nat.lt_asymm hlt, ih hr hf.of_cons hn hs]
  | node j k c r _ ih =>
    obtain ⟨_, hj, _, hr, hd⟩ := nodup_node.mp h
    by_cases hne : j = n
    · subst hne
      obtain rfl : .node j k c .nil = s := by simpa [subtree?] using hs
      simp [remove, hfront hf, append]
    · have hn : n ∈ r.roots := by simpa [roots, Ne.symm hne] using hn
      have hlt : j < n := List.rel_of_pairwise_cons hf hn
      have hnc : n ∉ c.ids := fun hm => hd hm (mem_ids_of_mem_roots hn)
      have hs : r.subtree? n = some s := by
        simpa [subtree?, hne, (subtree?_eq_none_iff n c).mpr hnc] using hs
      simp [remove, hne, remove_of_not_mem hnc, place, Nat.lt_asymm hlt,
        ih hr hf.of_cons hn hs]

/-! ## Texts -/

@[simp] theorem ids_setText (n : NodeId) (x : String) (f : Forest) :
    (f.setText n x).ids = f.ids := by
  induction f with
  | nil => rfl
  | token j k t r ih => by_cases h : j = n <;> simp [setText, ids, h, ih]
  | node j k c r ihc ihr => simp [setText, ids, ihc, ihr]

@[simp] theorem roots_setText (n : NodeId) (x : String) (f : Forest) :
    (f.setText n x).roots = f.roots := by
  induction f with
  | nil => rfl
  | token j k t r ih => by_cases h : j = n <;> simp [setText, roots, h, ih]
  | node j k c r _ ih => simp [setText, roots, ih]

/-- Only the last text given to a token counts. -/
theorem setText_setText (n : NodeId) (x y : String) (f : Forest) :
    (f.setText n x).setText n y = f.setText n y := by
  induction f with
  | nil => rfl
  | token j k t r ih => by_cases h : j = n <;> simp [setText, h, ih]
  | node j k c r ihc ihr => simp [setText, ihc, ihr]

/-- Giving a token the text it has changes nothing. -/
theorem setText_self {k : Kind} {t : String} (h : f.ids.Nodup)
    (hs : f.subtree? n = some (.token n k t .nil)) : f.setText n t = f := by
  induction f with
  | nil => rfl
  | token j k' t' r ih =>
    obtain ⟨_, hr⟩ := nodup_token.mp h
    simp only [subtree?] at hs
    split at hs
    · cases hs
      simp [setText]
    · next hj => simp [setText, hj, ih hr hs]
  | node j k' c r ihc ihr =>
    obtain ⟨_, _, hc, hr, hd⟩ := nodup_node.mp h
    simp only [subtree?] at hs
    split at hs
    · cases hs
    · rcases Option.or_eq_some_iff.mp hs with hs | ⟨hnone, hs⟩
      · have hnr : n ∉ r.ids := fun hm => hd (mem_of_subtree? hs) hm
        rw [setText, ihc hc hs, setText_of_not_mem t hnr]
      · rw [setText, ihr hr hs, setText_of_not_mem t
          ((subtree?_eq_none_iff n c).mp hnone)]

/-- A token that was given a text is found with it. -/
theorem subtree?_setText_self (x : String) {k : Kind} {t : String}
    (hs : f.subtree? n = some (.token n k t .nil)) :
    (f.setText n x).subtree? n = some (.token n k x .nil) := by
  induction f with
  | nil => simp [subtree?] at hs
  | token j k' t' r ih =>
    simp only [subtree?] at hs
    split at hs
    · cases hs
      simp [setText, subtree?]
    · next hj => simp [setText, subtree?, hj, ih hs]
  | node j k' c r ihc ihr =>
    simp only [subtree?] at hs
    split at hs
    · cases hs
    · next hj =>
      rcases Option.or_eq_some_iff.mp hs with hs | ⟨hnone, hs⟩
      · simp [setText, subtree?, hj, ihc hs]
      · simp [setText, subtree?, hj,
          setText_of_not_mem x ((subtree?_eq_none_iff n c).mp hnone),
          hnone, ihr hs]

/-! ## Trees behind all others -/

theorem remove_append (h : n ∉ g.ids) (f : Forest) :
    (f.append g).remove n = (f.remove n).append g := by
  induction f with
  | nil => exact remove_of_not_mem h
  | token j k t r ih => by_cases hj : j = n <;> simp [append, remove, hj, ih]
  | node j k c r _ ih => by_cases hj : j = n <;> simp [append, remove, hj, ih]

theorem insertUnder_append (i : Nat) (s : Forest) (h : p ∉ g.ids) (f : Forest) :
    insertUnder p i s (f.append g) = (insertUnder p i s f).append g := by
  induction f with
  | nil => exact insertUnder_of_not_mem i s h
  | token j k t r ih => simp [append, insertUnder, ih]
  | node j k c r _ ih =>
    by_cases hj : j = p <;> simp [append, insertUnder, hj, ih]

theorem setText_append (x : String) (h : n ∉ g.ids) (f : Forest) :
    (f.append g).setText n x = (f.setText n x).append g := by
  induction f with
  | nil => exact setText_of_not_mem x h
  | token j k t r ih => by_cases hj : j = n <;> simp [append, setText, hj, ih]
  | node j k c r _ ih => simp [append, setText, ih]

/-- A tree whose root is older than all in the back comes to stand in the
front. -/
theorem place_append (s : Forest) (h : ∀ m ∈ g.roots, n < m) (f : Forest) :
    place n s (f.append g) = (place n s f).append g := by
  induction f with
  | nil =>
    cases g with
    | nil => simp [append, place, append_nil]
    | token j k t r => simp [append, place, h j (by simp [roots])]
    | node j k c r => simp [append, place, h j (by simp [roots])]
  | token j k t r ih =>
    by_cases hj : n < j <;> simp [append, place, hj, ih, append_assoc]
  | node j k c r _ ih =>
    by_cases hj : n < j <;> simp [append, place, hj, ih, append_assoc]

end TreeLint.Forest
