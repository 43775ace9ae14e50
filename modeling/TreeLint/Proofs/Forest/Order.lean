import TreeLint.Proofs.Forest.Tokens

/-!
# Document order

A node precedes another one if it comes before it in pre-order (`Precedes`).
In a forest in which no node occurs twice this is a strict total order. It
can be read off the parts of a forest: a node precedes what stands below it,
the trees of siblings come one after the other (`precedes_of_siblings`), and
so do the tokens around a node (`Around.precedes_of_mem_pre`,
`Around.precedes_of_mem_post`).

A walk goes in pre-order (specification, §4.3), and tokens before and after
a node are meant in this order.
-/

namespace TreeLint

/-- In a list without repetition, what comes before something has the
smaller index. -/
theorem pair_sublist_iff {l : List NodeId} {x y : NodeId} (hl : l.Nodup) :
    [x, y].Sublist l ↔ y ∈ l ∧ l.idxOf x < l.idxOf y := by
  induction l with
  | nil => simp
  | cons a l ih =>
    obtain ⟨ha, hl⟩ := List.nodup_cons.mp hl
    rw [List.cons_sublist_cons', ih hl, List.singleton_sublist, List.mem_cons]
    by_cases hx : a = x
    · subst hx
      by_cases hy : a = y
      · subst hy
        simp [ha]
      · simp [List.idxOf_cons_ne l hy, Ne.symm hy, or_iff_right_of_imp And.left]
    · by_cases hy : a = y
      · subst hy
        simp [Ne.symm hx, ha]
      · simp [List.idxOf_cons_ne l hx, List.idxOf_cons_ne l hy,
          Ne.symm hx, Ne.symm hy]

namespace Forest

variable {f s : Forest} {n p c d x y z : NodeId} {pre post : List Token}

/-- A node comes before another one. -/
def Precedes (f : Forest) (x y : NodeId) : Prop := [x, y].Sublist f.ids

/-! ## A strict total order -/

namespace Precedes

theorem mem_left (h : f.Precedes x y) : x ∈ f.ids := h.subset List.mem_cons_self

theorem mem_right (h : f.Precedes x y) : y ∈ f.ids := h.subset (by simp)

theorem ne (h : f.Precedes x y) (hf : f.ids.Nodup) : x ≠ y := by
  have hnodup := hf.sublist h
  simpa using hnodup

theorem asymm (h : f.Precedes x y) (hf : f.ids.Nodup) : ¬ f.Precedes y x := by
  intro h'
  exact Nat.lt_asymm ((pair_sublist_iff hf).mp h).2
    ((pair_sublist_iff hf).mp h').2

theorem trans (h : f.Precedes x y) (h' : f.Precedes y z) (hf : f.ids.Nodup) :
    f.Precedes x z := by
  have hxy := (pair_sublist_iff hf).mp h
  have hyz := (pair_sublist_iff hf).mp h'
  exact (pair_sublist_iff hf).mpr ⟨hyz.1, Nat.lt_trans hxy.2 hyz.2⟩

end Precedes

theorem precedes_total (hf : f.ids.Nodup) (hx : x ∈ f.ids) (hy : y ∈ f.ids)
    (hne : x ≠ y) :
    f.Precedes x y ∨ f.Precedes y x := by
  rcases Nat.lt_trichotomy (f.ids.idxOf x) (f.ids.idxOf y) with h | h | h
  · exact Or.inl ((pair_sublist_iff hf).mpr ⟨hy, h⟩)
  · exact absurd ((List.idxOf_inj hx).mp h) hne
  · exact Or.inr ((pair_sublist_iff hf).mpr ⟨hx, h⟩)

/-- Where one order is known, a smaller list of the same nodes has it, too. -/
theorem Precedes.of_sublist {l : List NodeId} (h : f.Precedes x y)
    (hf : f.ids.Nodup) (hl : l.Sublist f.ids) (hx : x ∈ l) (hy : y ∈ l) :
    [x, y].Sublist l := by
  have hnodup := hf.sublist hl
  rw [pair_sublist_iff hnodup]
  refine ⟨hy, ?_⟩
  rcases Nat.lt_trichotomy (l.idxOf x) (l.idxOf y) with h' | h' | h'
  · exact h'
  · exact absurd ((List.idxOf_inj hx).mp h') (h.ne hf)
  · have hback : f.Precedes y x :=
      ((pair_sublist_iff hnodup).mpr ⟨hx, h'⟩).trans hl
    exact absurd hback (h.asymm hf)

/-- Forests with the same nodes of some kind have them in the same order. -/
theorem Precedes.of_filter_eq {g : Forest} {keep : NodeId → Bool}
    (h : f.Precedes x y) (hids : g.ids.filter keep = f.ids.filter keep)
    (hx : keep x = true) (hy : keep y = true) : g.Precedes x y := by
  have hkept := List.Sublist.filter keep h
  rw [← hids] at hkept
  simp only [List.filter_cons, hx, hy, if_true, List.filter_nil] at hkept
  exact hkept.trans List.filter_sublist

/-! ## Above, below and beside -/

/-- The nodes of a tree keep the order they have in the forest. -/
theorem ids_subtree?_sublist (h : f.subtree? n = some s) :
    s.ids.Sublist f.ids := by
  induction f with
  | nil => cases h
  | token i k y r ih =>
    simp only [subtree?] at h
    split at h
    · cases h
      exact (List.nil_sublist _).cons_cons i
    · exact (ih h).cons i
  | node i k c r ihc ihr =>
    simp only [subtree?] at h
    split at h
    · cases h
      rw [ids, ids, ids, List.append_nil]
      exact (List.sublist_append_left _ _).cons_cons i
    · rcases Option.or_eq_some_iff.mp h with h | ⟨-, h⟩
      · exact ((ihc h).trans (List.sublist_append_left _ _)).cons i
      · exact ((ihr h).trans (List.sublist_append_right _ _)).cons i

/-- A node, and what stands below it. -/
theorem offspring_sublist (h : p ∈ f.ids) :
    (p :: (f.offspring p).ids).Sublist f.ids := by
  obtain ⟨s, hs⟩ := exists_subtree h
  have hsub := ids_subtree?_sublist hs
  rw [offspring, hs, Option.getD_some]
  rcases eq_of_roots_eq_singleton (roots_subtree? hs) with ⟨k, y,
    rfl⟩ | ⟨k, c, rfl⟩
  · exact hsub
  · rw [ids, ids, List.append_nil] at hsub
    exact hsub

theorem mem_of_mem_roots_offspring
    (h : c ∈ (f.offspring p).roots) : p ∈ f.ids := by
  by_contra hp
  rw [offspring_of_not_mem hp] at h
  cases h

theorem precedes_child (h : c ∈ (f.offspring p).roots) : f.Precedes p c :=
  ((List.singleton_sublist.mpr (mem_ids_of_mem_roots h)).cons_cons p).trans
    (offspring_sublist (mem_of_mem_roots_offspring h))

/-- The tree of a child comes before the children behind it. -/
theorem precedes_of_siblings {as bs : List NodeId} (hf : f.ids.Nodup)
    (h : (f.offspring p).roots = as ++ d :: bs) (hs : f.subtree? d = some s)
    (hx : x ∈ s.ids) (hy : y ∈ bs) : f.Precedes x y := by
  have hd : d ∈ (f.offspring p).roots := by simp [h]
  have hp := mem_of_mem_roots_offspring hd
  have hcut : (f.offspring p).roots = (as ++ [d]) ++ bs := by simp [h]
  obtain ⟨g₁, g₂, hg, h₁, h₂⟩ := exists_append_of_roots hcut
  have hd₁ : d ∈ g₁.ids := mem_ids_of_mem_roots (by simp [h₁])
  have hsub := subtree?_offspring hf (mem_ids_of_mem_roots hd)
  obtain ⟨s', hs'⟩ := exists_subtree hd₁
  rw [hg, subtree?_append, hs', Option.some_or, hs] at hsub
  cases hsub
  have hx₁ : x ∈ g₁.ids := ids_subtree?_subset hs' hx
  have hy₂ : y ∈ g₂.ids := mem_ids_of_mem_roots (h₂ ▸ hy)
  have hpair : [x, y].Sublist (f.offspring p).ids := by
    rw [hg, ids_append]
    exact (List.singleton_sublist.mpr hx₁).append
      (List.singleton_sublist.mpr hy₂)
  exact hpair.trans ((List.sublist_cons_self _ _).trans (offspring_sublist hp))

theorem roots_sublist_ids (f : Forest) : f.roots.Sublist f.ids := by
  induction f with
  | nil => exact List.Sublist.slnil
  | token i k y r ih => exact ih.cons_cons i
  | node i k c r _ ih =>
    exact (ih.trans (List.sublist_append_right _ _)).cons_cons i

/-- Children come in the order in which they are listed. -/
theorem precedes_iff_roots (hf : f.ids.Nodup) (hc : c ∈ (f.offspring p).roots)
    (hd : d ∈ (f.offspring p).roots) :
    f.Precedes c d ↔ [c, d].Sublist (f.offspring p).roots := by
  have hsub : (f.offspring p).roots.Sublist f.ids :=
    (roots_sublist_ids _).trans
      ((List.sublist_cons_self _ _).trans
        (offspring_sublist (mem_of_mem_roots_offspring hc)))
  exact ⟨fun h => h.of_sublist hf hsub hc hd, fun h => h.trans hsub⟩

/-- So does what stands below them. -/
theorem Precedes.of_below (h : f.Precedes c d) (hf : f.ids.Nodup)
    (hc : c ∈ (f.offspring p).roots) (hd : d ∈ (f.offspring p).roots)
    (hs : f.subtree? c = some s) (hx : x ∈ s.ids) : f.Precedes x d := by
  have hpair := (precedes_iff_roots hf hc hd).mp h
  have hnodup := nodup_roots (nodup_offspring p hf)
  obtain ⟨as, bs, hsplit⟩ := List.append_of_mem hc
  refine precedes_of_siblings hf hsplit hs hx ?_
  have hne : d ≠ c := Ne.symm (h.ne hf)
  rw [hsplit] at hpair hnodup hd
  rcases List.mem_append.mp hd with hd | hd
  · -- behind it in the list, so not before it
    have hback : [d, c].Sublist (as ++ c :: bs) :=
      (List.singleton_sublist.mpr hd).append
        (List.singleton_sublist.mpr List.mem_cons_self)
    rw [pair_sublist_iff hnodup] at hpair hback
    exact absurd hpair.2 (Nat.lt_asymm hback.2)
  · exact (List.mem_cons.mp hd).resolve_left hne

/-! ## Tokens -/

/-- The tree of a node, with the tokens before and after it. -/
theorem Around.sublist (h : Around n f pre s post) :
    (pre.map Token.id ++ (s.ids ++ post.map Token.id)).Sublist f.ids := by
  induction h with
  | token k y r => exact (map_id_tokens_sublist r).cons_cons n
  | node k c r =>
    simp only [List.map_nil, List.nil_append, ids, List.append_nil,
      List.cons_append]
    exact ((map_id_tokens_sublist r).append_left _).cons_cons n
  | behindToken _ _ ih => exact ih.cons_cons _
  | @inside i k c r s pre post _ _ ih =>
    simp only [ids, List.map_append, ← List.append_assoc]
    rw [← List.append_assoc] at ih
    exact (ih.append (map_id_tokens_sublist r)).cons i
  | @behindNode i k c r s pre post _ _ _ ih =>
    simp only [ids, List.map_append, List.append_assoc]
    exact ((map_id_tokens_sublist c).append ih).cons i

theorem Around.precedes_of_mem_pre (h : Around n f pre s post) {tok : Token}
    (htok : tok ∈ pre) :
    f.Precedes tok.id n := by
  have hn : n ∈ s.ids := mem_ids_of_roots_eq (roots_subtree? h.subtree?)
  refine List.Sublist.trans ?_ h.sublist
  exact (List.singleton_sublist.mpr (List.mem_map_of_mem htok)).append
    (List.singleton_sublist.mpr (List.mem_append_left _ hn))

theorem Around.precedes_of_mem_post (h : Around n f pre s post) {tok : Token}
    (htok : tok ∈ post) :
    f.Precedes n tok.id := by
  have hn : n ∈ s.ids := mem_ids_of_roots_eq (roots_subtree? h.subtree?)
  refine List.Sublist.trans ?_ ((List.sublist_append_right _ _).trans h.sublist)
  exact (List.singleton_sublist.mpr hn).append
    (List.singleton_sublist.mpr (List.mem_map_of_mem htok))

end Forest

end TreeLint
