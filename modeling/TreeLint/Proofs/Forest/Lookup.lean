import TreeLint.Forest.Navigation
import Mathlib.Data.List.Nodup

/-!
# Looking nodes up in a forest

Where `subtree?` and `ancestors?` find a node, what they find there, and how
the two answers fit together. The first half holds of every forest. The
second half is about forests in which no identity occurs twice: there a node
is listed among the children of exactly the node that stands nearest above
it (`ancestors?_cons_iff`), a subtree holds exactly the nodes that have its
root above them (`mem_subtree?_iff`), and a forest can be taken apart into
the trees that are found at its roots (`flatMap_roots`).

Specification, §3: navigation in a tree of nodes with identities.
-/

namespace TreeLint.Forest

variable {f g s : Forest} {n p : NodeId}

/-! ## One forest after another -/

theorem append_nil (f : Forest) : f.append .nil = f := by
  induction f with
  | nil => rfl
  | token i k s r ih => simp [append, ih]
  | node i k c r _ ih => simp [append, ih]

theorem append_assoc (f g h : Forest) :
    (f.append g).append h = f.append (g.append h) := by
  induction f with
  | nil => rfl
  | token i k s r ih => simp [append, ih]
  | node i k c r _ ih => simp [append, ih]

@[simp] theorem ids_append (f g : Forest) :
    (f.append g).ids = f.ids ++ g.ids := by
  induction f with
  | nil => rfl
  | token i k s r ih => simp [append, ids, ih]
  | node i k c r _ ih => simp [append, ids, ih]

@[simp] theorem roots_append (f g : Forest) :
    (f.append g).roots = f.roots ++ g.roots := by
  induction f with
  | nil => rfl
  | token i k s r ih => simp [append, roots, ih]
  | node i k c r _ ih => simp [append, roots, ih]

/-! ## Which nodes there are -/

theorem contains_iff_mem (n : NodeId) (f : Forest) :
    f.contains n = true ↔ n ∈ f.ids := by
  induction f with
  | nil => simp [contains, ids]
  | token i k s r ih => simp [contains, ids, ih, @eq_comm _ n i]
  | node i k c r ihc ihr =>
    simp [contains, ids, ihc, ihr, @eq_comm _ n i, or_assoc]

theorem mem_ids_of_mem_roots (h : n ∈ f.roots) : n ∈ f.ids := by
  induction f with
  | nil => simp [roots] at h
  | token i k s r ih =>
    simp only [roots, ids, List.mem_cons] at h ⊢
    exact h.imp_right ih
  | node i k c r _ ih =>
    simp only [roots, ids, List.mem_cons, List.mem_append] at h ⊢
    exact h.imp_right fun h => Or.inr (ih h)

/-- A tree is found for exactly the nodes that are there. -/
theorem subtree?_eq_none_iff (n : NodeId) (f : Forest) :
    f.subtree? n = none ↔ n ∉ f.ids := by
  induction f with
  | nil => simp [subtree?, ids]
  | token i k s r ih =>
    by_cases h : i = n
    · simp [subtree?, ids, h]
    · simp [subtree?, ids, h, ih, Ne.symm h]
  | node i k c r ihc ihr =>
    by_cases h : i = n
    · simp [subtree?, ids, h]
    · simp [subtree?, ids, h, ihc, ihr, Ne.symm h, Option.or_eq_none_iff]

/-- A search that follows the forest, and ends at the node it looks for,
finds nothing if the node is not there. -/
theorem search_of_not_mem {α : Type} {find : Forest → Option α}
    (hnil : find .nil = none)
    (htoken : ∀ i k y r, i ≠ n → find r = none →
      find (.token i k y r) = none)
    (hnode : ∀ i k c r, i ≠ n → n ∉ c.ids → find c = none →
      find r = none → find (.node i k c r) = none)
    (h : n ∉ f.ids) : find f = none := by
  induction f with
  | nil => exact hnil
  | token i k y r ih =>
    simp only [ids, List.mem_cons, not_or] at h
    exact htoken i k y r (Ne.symm h.1) (ih h.2)
  | node i k c r ihc ihr =>
    simp only [ids, List.mem_cons, List.mem_append, not_or] at h
    exact hnode i k c r (Ne.symm h.1) h.2.1 (ihc h.2.1) (ihr h.2.2)

theorem exists_subtree (h : n ∈ f.ids) : ∃ s, f.subtree? n = some s := by
  cases hs : f.subtree? n with
  | none => exact absurd h ((subtree?_eq_none_iff n f).mp hs)
  | some s => exact ⟨s, rfl⟩

theorem mem_of_subtree? (h : f.subtree? n = some s) : n ∈ f.ids := by
  by_contra hn
  rw [(subtree?_eq_none_iff n f).mpr hn] at h
  cases h

theorem subtree?_append (n : NodeId) (f g : Forest) :
    (f.append g).subtree? n = (f.subtree? n).or (g.subtree? n) := by
  induction f with
  | nil => simp [append, subtree?]
  | token i k s r ih => by_cases h : i = n <;> simp [append, subtree?, h, ih]
  | node i k c r _ ih =>
    by_cases h : i = n <;> simp [append, subtree?, h, ih, Option.or_assoc]

/-- A subtree is one tree, and its root is the node asked for. -/
theorem roots_subtree? (h : f.subtree? n = some s) : s.roots = [n] := by
  induction f with
  | nil => simp [subtree?] at h
  | token i k t r ih =>
    simp only [subtree?] at h
    split at h
    · next hi => cases h; simp [roots, hi]
    · exact ih h
  | node i k c r ihc ihr =>
    simp only [subtree?] at h
    split at h
    · next hi => cases h; simp [roots, hi]
    · rcases Option.or_eq_some_iff.mp h with h | ⟨_, h⟩
      · exact ihc h
      · exact ihr h

/-- What stands below a node stands in the forest. -/
theorem ids_subtree?_subset (h : f.subtree? n = some s) : s.ids ⊆ f.ids := by
  induction f with
  | nil => simp [subtree?] at h
  | token i k t r ih =>
    simp only [subtree?] at h
    split at h
    · cases h; simp [ids]
    · exact fun x hx => List.mem_cons_of_mem _ (ih h hx)
  | node i k c r ihc ihr =>
    simp only [subtree?] at h
    split at h
    · cases h; intro x hx; simp only [ids, List.append_nil] at hx ⊢; grind
    · rcases Option.or_eq_some_iff.mp h with h | ⟨_, h⟩
      · intro x hx; have := ihc h hx; simp [ids, this]
      · intro x hx; have := ihr h hx; simp [ids, this]

/-- One tree is a token or a composite node with nothing after it. -/
theorem eq_of_roots_eq_singleton (h : s.roots = [n]) :
    (∃ k t, s = .token n k t .nil) ∨ ∃ k c, s = .node n k c .nil := by
  cases s with
  | nil => simp [roots] at h
  | token i k t r =>
    simp only [roots, List.cons.injEq] at h
    cases r <;> simp_all [roots]
  | node i k c r =>
    simp only [roots, List.cons.injEq] at h
    cases r <;> simp_all [roots]


/-! ## Below and above a node -/

/-- The nodes directly below a node, with everything below them. -/
def offspring (p : NodeId) (f : Forest) : Forest :=
  ((f.subtree? p).getD .nil).rootChildren

/-- A token has no children, so a search for children goes past it. -/
theorem offspring_token (p i : NodeId) (k : Kind) (t : String) (r : Forest) :
    (Forest.token i k t r).offspring p = if i = p then .nil
      else r.offspring p := by
  by_cases h : i = p <;> simp [offspring, subtree?, rootChildren, h]

/-- The children of a node are found at the node itself, below it, or behind
it, in this order. -/
theorem offspring_node (p i : NodeId) (k : Kind) (c r : Forest) :
    (Forest.node i k c r).offspring p =
      if i = p then c
      else if p ∈ c.ids then c.offspring p else r.offspring p := by
  by_cases h : i = p
  · simp [offspring, subtree?, rootChildren, h]
  · by_cases hc : p ∈ c.ids
    · obtain ⟨s, hs⟩ := exists_subtree hc
      simp [offspring, subtree?, h, hc, hs]
    · simp [offspring, subtree?, h, hc, (subtree?_eq_none_iff p c).mpr hc]

theorem offspring_of_not_mem (h : p ∉ f.ids) : f.offspring p = .nil := by
  simp [offspring, (subtree?_eq_none_iff p f).mpr h, rootChildren]

/-- Children and what stands below them are nodes of the forest. -/
theorem ids_offspring_subset (p : NodeId) (f : Forest) :
    (f.offspring p).ids ⊆ f.ids := by
  induction f with
  | nil => simp [offspring, subtree?, rootChildren, ids]
  | token i k t r ih =>
    rw [offspring_token]
    split
    · simp [ids]
    · exact fun x hx => List.mem_cons_of_mem _ (ih hx)
  | node i k c r ihc ihr =>
    rw [offspring_node]
    intro x hx
    simp only [ids, List.mem_cons, List.mem_append]
    split at hx
    · exact Or.inr (Or.inl hx)
    · split at hx
      · exact Or.inr (Or.inl (ihc hx))
      · exact Or.inr (Or.inr (ihr hx))

/-- There is an answer about the nodes above a node exactly if the node is
there. It may be the empty list, for an outermost one. -/
theorem ancestors?_eq_none_iff (n : NodeId) (f : Forest) :
    f.ancestors? n = none ↔ n ∉ f.ids := by
  induction f with
  | nil => simp [ancestors?, ids]
  | token i k s r ih =>
    by_cases h : i = n
    · simp [ancestors?, ids, h]
    · simp [ancestors?, ids, h, ih, Ne.symm h]
  | node i k c r ihc ihr =>
    by_cases h : i = n
    · simp [ancestors?, ids, h]
    · cases hc : c.ancestors? n with
      | none => simp [ancestors?, ids, h, hc, ihr, Ne.symm h, ihc.mp hc]
      | some above =>
        have : n ∈ c.ids := by by_contra hn; rw [ihc.mpr hn] at hc; cases hc
        simp [ancestors?, ids, h, hc, this]

theorem exists_ancestors (h : n ∈ f.ids) : ∃ as, f.ancestors? n = some as := by
  cases ha : f.ancestors? n with
  | none => exact absurd h ((ancestors?_eq_none_iff n f).mp ha)
  | some as => exact ⟨as, rfl⟩

/-- As for trees: the first forest that has the node answers. -/
theorem ancestors?_append (n : NodeId) (f g : Forest) :
    (f.append g).ancestors? n = (f.ancestors? n).or (g.ancestors? n) := by
  induction f with
  | nil => simp [append, ancestors?]
  | token i k s r ih => by_cases h : i = n <;> simp [append, ancestors?, h, ih]
  | node i k c r _ ih =>
    by_cases h : i = n
    · simp [append, ancestors?, h]
    · cases hc : c.ancestors? n <;> simp [append, ancestors?, h, hc, ih]

/-- The nodes above a node are nodes of the forest. -/
theorem ancestors?_subset {as : List NodeId}
    (h : f.ancestors? n = some as) : as ⊆ f.ids := by
  induction f generalizing as with
  | nil => simp [ancestors?] at h
  | token i k t r ih =>
    simp only [ancestors?] at h
    split at h
    · cases h; simp
    · exact fun x hx => List.mem_cons_of_mem _ (ih h hx)
  | node i k c r ihc ihr =>
    simp only [ancestors?] at h
    split at h
    · cases h; simp
    · split at h
      · next above hc =>
        cases h
        intro x hx
        rcases List.mem_append.mp hx with hx | hx
        · simp [ids, ihc hc hx]
        · simp_all [ids]
      · intro x hx
        simp [ids, ihr h hx]

/-! ## Forests in which no identity occurs twice -/

theorem nodup_token {i : NodeId} {k : Kind} {t : String} {r : Forest} :
    (Forest.token i k t r).ids.Nodup ↔ i ∉ r.ids ∧ r.ids.Nodup := by
  simp [ids]

theorem nodup_node {i : NodeId} {k : Kind} {c r : Forest} :
    (Forest.node i k c r).ids.Nodup ↔
      i ∉ c.ids ∧ i ∉ r.ids ∧ c.ids.Nodup ∧ r.ids.Nodup ∧
        c.ids.Disjoint r.ids := by
  simp only [ids, List.nodup_cons, List.mem_append, not_or,
    List.nodup_append', and_assoc]

theorem nodup_roots (h : f.ids.Nodup) : f.roots.Nodup := by
  induction f with
  | nil => simp [roots]
  | token i k t r ih =>
    obtain ⟨hi, hr⟩ := nodup_token.mp h
    exact List.nodup_cons.mpr ⟨fun hm => hi (mem_ids_of_mem_roots hm), ih hr⟩
  | node i k c r _ ih =>
    obtain ⟨_, hi, _, hr, _⟩ := nodup_node.mp h
    exact List.nodup_cons.mpr ⟨fun hm => hi (mem_ids_of_mem_roots hm), ih hr⟩

/-- The condition passes down to the children of any node. -/
theorem nodup_offspring (p : NodeId) (h : f.ids.Nodup) :
    (f.offspring p).ids.Nodup := by
  induction f with
  | nil => simp [offspring, subtree?, rootChildren, ids]
  | token i k t r ih =>
    rw [offspring_token]
    split
    · simp [ids]
    · exact ih (nodup_token.mp h).2
  | node i k c r ihc ihr =>
    obtain ⟨_, _, hc, hr, _⟩ := nodup_node.mp h
    rw [offspring_node]
    split
    · exact hc
    · split
      · exact ihc hc
      · exact ihr hr

/-- Nothing is above exactly the outermost nodes. -/
theorem ancestors?_eq_nil_iff (h : f.ids.Nodup) :
    f.ancestors? n = some [] ↔ n ∈ f.roots := by
  induction f with
  | nil => simp [ancestors?, roots]
  | token i k t r ih =>
    obtain ⟨_, hr⟩ := nodup_token.mp h
    by_cases hi : i = n
    · simp [ancestors?, roots, hi]
    · simp [ancestors?, roots, hi, Ne.symm hi, ih hr]
  | node i k c r _ ih =>
    obtain ⟨_, _, _, hr, hd⟩ := nodup_node.mp h
    by_cases hi : i = n
    · simp [ancestors?, roots, hi]
    · cases hc : c.ancestors? n with
      | none => simp [ancestors?, roots, hi, Ne.symm hi, hc, ih hr]
      | some above =>
        have hn : n ∈ c.ids := by
          by_contra hn
          rw [(ancestors?_eq_none_iff n c).mpr hn] at hc
          cases hc
        have : n ∉ r.roots := fun hm => hd hn (mem_ids_of_mem_roots hm)
        simp [ancestors?, roots, hi, Ne.symm hi, hc, this]

/-- Above the parent is what is above the child, less the parent. -/
theorem ancestors?_of_cons {as : List NodeId} (h : f.ids.Nodup)
    (ha : f.ancestors? n = some (p :: as)) : f.ancestors? p = some as := by
  -- By induction on the forest, for any list of ancestors: below the root
  -- of a tree the list gets one longer.
  induction f generalizing as with
  | nil => simp [ancestors?] at ha
  | token i k t r ih =>
    obtain ⟨hi, hr⟩ := nodup_token.mp h
    simp only [ancestors?] at ha ⊢
    split at ha
    · cases ha
    · have hp : p ∈ r.ids := ancestors?_subset ha List.mem_cons_self
      have hne : i ≠ p := fun h => hi (h ▸ hp)
      rw [if_neg hne]
      exact ih hr ha
  | node i k c r ihc ihr =>
    obtain ⟨hic, hir, hc, hr, hd⟩ := nodup_node.mp h
    simp only [ancestors?] at ha ⊢
    split at ha
    · cases ha
    · split at ha
      · next above habove =>
        -- The root is the parent itself, or further up than the parent.
        cases above with
        | nil =>
          obtain ⟨rfl, rfl⟩ : i = p ∧ [] = as := by simpa using ha
          rw [if_pos rfl]
        | cons q above =>
          obtain ⟨rfl, rfl⟩ : q = p ∧ above ++ [i] = as := by simpa using ha
          have hq : q ∈ c.ids := ancestors?_subset habove List.mem_cons_self
          have hne : i ≠ q := fun h => hic (h ▸ hq)
          rw [if_neg hne, ihc hc habove]
      · have hp : p ∈ r.ids := ancestors?_subset ha List.mem_cons_self
        have hpc : c.ancestors? p = none :=
          (ancestors?_eq_none_iff p c).mpr fun hm => hd hm hp
        have hne : i ≠ p := fun h => hir (h ▸ hp)
        rw [if_neg hne, hpc]
        exact ihr hr ha

theorem mem_of_ancestors? {as : List NodeId}
    (h : f.ancestors? n = some as) : n ∈ f.ids := by
  by_contra hn
  rw [(ancestors?_eq_none_iff n f).mpr hn] at h
  cases h

/-- The two ways to tell a parent agree: the nearest node above, and the
node it is listed under. -/
theorem ancestors?_cons_iff (h : f.ids.Nodup) :
    (∃ as, f.ancestors? n = some (p :: as)) ↔ n ∈ (f.offspring p).roots := by
  -- By induction on the forest. Both sides search it in the same order;
  -- what one of them passes the other passes, since no identity occurs
  -- twice.
  induction f with
  | nil => simp [ancestors?, offspring, subtree?, rootChildren, roots]
  | token i k t r ih =>
    obtain ⟨hi, hr⟩ := nodup_token.mp h
    rw [offspring_token]
    by_cases hn : i = n
    · subst hn
      have : i ∉ (r.offspring p).roots := fun hm =>
        hi (ids_offspring_subset p r (mem_ids_of_mem_roots hm))
      by_cases hp : i = p <;> simp [ancestors?, hp, roots, this]
    · by_cases hp : i = p
      · subst hp
        simp only [ancestors?, if_neg hn, if_true, roots,
          List.not_mem_nil, iff_false]
        rintro ⟨as, ha⟩
        exact hi (ancestors?_subset ha List.mem_cons_self)
      · simpa [ancestors?, hn, hp] using ih hr
  | node i k c r ihc ihr =>
    obtain ⟨hic, hir, hc, hr, hd⟩ := nodup_node.mp h
    rw [offspring_node]
    by_cases hn : i = n
    · -- the root of this tree is nobody's child
      subst hn
      have h1 : i ∉ (c.offspring p).roots := fun hm =>
        hic (ids_offspring_subset p c (mem_ids_of_mem_roots hm))
      have h2 : i ∉ (r.offspring p).roots := fun hm =>
        hir (ids_offspring_subset p r (mem_ids_of_mem_roots hm))
      have h3 : i ∉ c.roots := fun hm => hic (mem_ids_of_mem_roots hm)
      simp only [ancestors?, if_true]
      split
      · simp [h3]
      · split <;> simp [h1, h2]
    · cases habove : c.ancestors? n with
      | none =>
        have hnc : n ∉ c.ids := (ancestors?_eq_none_iff n c).mp habove
        have h1 : n ∉ (c.offspring p).roots := fun hm =>
          hnc (ids_offspring_subset p c (mem_ids_of_mem_roots hm))
        have h2 : n ∉ c.roots := fun hm => hnc (mem_ids_of_mem_roots hm)
        have hpr : (∃ as, r.ancestors? n = some (p :: as)) → p ∈ r.ids :=
          fun ⟨as, ha⟩ => ancestors?_subset ha List.mem_cons_self
        simp only [ancestors?, if_neg hn, habove]
        split
        · next hp => simpa [h2] using fun as ha => hir (hp ▸ hpr ⟨as, ha⟩)
        · split
          · next hp => simpa [h1] using fun as ha => hd hp (hpr ⟨as, ha⟩)
          · exact ihr hr
      | some above =>
        have hnc : n ∈ c.ids := mem_of_ancestors? habove
        have h2 : n ∉ (r.offspring p).roots := fun hm =>
          hd hnc (ids_offspring_subset p r (mem_ids_of_mem_roots hm))
        have hsub : above ⊆ c.ids := ancestors?_subset habove
        simp only [ancestors?, if_neg hn, habove]
        have hroot := ancestors?_eq_nil_iff (n := n) hc
        rw [habove] at hroot ihc
        -- With nothing above it inside, the node is one of the children.
        cases above with
        | nil =>
          have hnr : n ∈ c.roots := hroot.mp rfl
          have hno : n ∉ (c.offspring p).roots := by simpa using (ihc hc).not
          by_cases hp : i = p
          · simp [hp, hnr]
          · by_cases hpc : p ∈ c.ids <;> simp [hp, hpc, hno, h2]
        | cons q above =>
          have hq : q ∈ c.ids := hsub List.mem_cons_self
          have hnr : n ∉ c.roots := by simpa using hroot.not
          by_cases hp : i = p
          · subst hp
            have : q ≠ i := fun h => hic (h ▸ hq)
            simp [hnr, this]
          · have := ihc hc
            by_cases hpc : p ∈ c.ids
            · simpa [hp, hpc] using this
            · have : q ≠ p := fun h => hpc (h ▸ hq)
              simp [hp, hpc, h2, this]

/-- The nodes of a subtree are its root and those that have the root above
them. -/
theorem mem_subtree?_iff {m : NodeId} (h : f.ids.Nodup)
    (hs : f.subtree? n = some s) :
    m ∈ s.ids ↔ m = n ∨ n ∈ (f.ancestors? m).getD [] := by
  -- By induction on the forest, with the search for `n` and the one for the
  -- nodes above `m` side by side.
  induction f with
  | nil => simp [subtree?] at hs
  | token i k t r ih =>
    obtain ⟨hi, hr⟩ := nodup_token.mp h
    simp only [subtree?] at hs
    split at hs
    · next hin =>
      subst hin
      cases hs
      have : i ∉ (r.ancestors? m).getD [] := by
        cases ha : r.ancestors? m with
        | none => simp
        | some as => exact fun hm => hi (ancestors?_subset ha hm)
      by_cases him : i = m <;> simp [ids, ancestors?, him, this, @eq_comm _ m i]
    · next hin =>
      by_cases him : i = m
      · subst him
        have : i ∉ s.ids := fun hm => hi (ids_subtree?_subset hs hm)
        simp [ancestors?, hin, this]
      · simpa [ancestors?, him] using ih hr hs
  | node i k c r ihc ihr =>
    obtain ⟨hic, hir, hc, hr, hd⟩ := nodup_node.mp h
    simp only [subtree?] at hs
    -- Nobody who is not behind the tree is above a node there.
    have hrest : ∀ a ∉ r.ids, a ∉ (r.ancestors? m).getD [] := by
      intro a har
      cases ha : r.ancestors? m with
      | none => simp
      | some as => exact fun hm => har (ancestors?_subset ha hm)
    split at hs
    · next hin =>
      subst hin
      cases hs
      by_cases him : i = m
      · simp [ids, him]
      · cases ha : c.ancestors? m with
        | none =>
          have hmc : m ∉ c.ids := (ancestors?_eq_none_iff m c).mp ha
          simp [ids, ancestors?, him, Ne.symm him, ha, hmc, hrest i hir]
        | some above => simp [ids, ancestors?, him, ha, mem_of_ancestors? ha]
    · next hin =>
      rcases Option.or_eq_some_iff.mp hs with hs | ⟨hnone, hs⟩
      · have hsub : s.ids ⊆ c.ids := ids_subtree?_subset hs
        have hnr : n ∉ r.ids := fun hm => hd (mem_of_subtree? hs) hm
        by_cases him : i = m
        · subst him
          have : i ∉ s.ids := fun hm => hic (hsub hm)
          simp [ancestors?, hin, this]
        · have := ihc hc hs
          cases ha : c.ancestors? m with
          | none =>
            have hms : m ∉ s.ids := fun hm =>
              (ancestors?_eq_none_iff m c).mp ha (hsub hm)
            simp_all [ancestors?]
          | some above => simp_all [ancestors?, @eq_comm _ n i]
      · have hsub : s.ids ⊆ r.ids := ids_subtree?_subset hs
        have hnr : n ∈ r.ids := mem_of_subtree? hs
        by_cases him : i = m
        · subst him
          have : i ∉ s.ids := fun hm => hir (hsub hm)
          simp [ancestors?, hin, this]
        · cases ha : c.ancestors? m with
          | none => simpa [ancestors?, him, ha] using ihr hr hs
          | some above =>
            have hmc : m ∈ c.ids := mem_of_ancestors? ha
            have hms : m ∉ s.ids := fun hm => hd hmc (hsub hm)
            have hmn : m ≠ n := fun h => hd hmc (h ▸ hnr)
            have hna : n ∉ above := fun hm => hd (ancestors?_subset ha hm) hnr
            simp [ancestors?, him, ha, hms, hmn, hna, Ne.symm hin]

/-- A list that is made tree by tree is made from the trees that are found
at the roots. -/
theorem flatMap_roots {α : Type} {view : Forest → List α}
    (hnil : view .nil = [])
    (happend : ∀ f g, view (f.append g) = view f ++ view g) (h : f.ids.Nodup) :
    view f = f.roots.flatMap fun m => view ((f.subtree? m).getD .nil) := by
  -- By induction along the outermost trees; what stands below them is left
  -- to `view`.
  induction f with
  | nil => exact hnil
  | token i k t r ih =>
    obtain ⟨hi, hr⟩ := nodup_token.mp h
    have hfirst : (Forest.token i k t r).subtree? i =
        some (.token i k t .nil) := by simp [subtree?]
    have hrest : view r = r.roots.flatMap fun m =>
        view (((Forest.token i k t r).subtree? m).getD .nil) := by
      rw [ih hr]
      refine List.flatMap_congr fun m hm => ?_
      have hne : i ≠ m := fun heq => hi (heq ▸ mem_ids_of_mem_roots hm)
      rw [subtree?, if_neg hne]
    rw [roots, List.flatMap_cons, hfirst, ← hrest]
    exact happend (.token i k t .nil) r
  | node i k c r _ ih =>
    obtain ⟨-, hi, -, hr, hd⟩ := nodup_node.mp h
    have hfirst : (Forest.node i k c r).subtree? i =
        some (.node i k c .nil) := by simp [subtree?]
    have hrest : view r = r.roots.flatMap fun m =>
        view (((Forest.node i k c r).subtree? m).getD .nil) := by
      rw [ih hr]
      refine List.flatMap_congr fun m hm => ?_
      have hmr := mem_ids_of_mem_roots hm
      have hne : i ≠ m := fun heq => hi (heq ▸ hmr)
      rw [subtree?, if_neg hne, (subtree?_eq_none_iff m c).mpr fun hc =>
        hd hc hmr, Option.none_or]
    rw [roots, List.flatMap_cons, hfirst, ← hrest]
    exact happend (.node i k c .nil) r

/-- What stands below a node is found in its tree as it is found in the
whole forest. -/
theorem subtree?_subtree? {q : NodeId} (hf : f.ids.Nodup)
    (hs : f.subtree? n = some s) (hq : q ∈ s.ids) :
    s.subtree? q = f.subtree? q := by
  -- By induction on the forest. The second search goes the way of the first
  -- until it is inside the tree.
  induction f with
  | nil => cases hs
  | token j k y r ih =>
    obtain ⟨hj, hr⟩ := nodup_token.mp hf
    simp only [subtree?] at hs
    split at hs
    · cases hs
      obtain rfl := List.mem_singleton.mp hq
      simp [subtree?]
    · have hne : j ≠ q := fun h => hj (h ▸ ids_subtree?_subset hs hq)
      rw [ih hr hs, subtree?, if_neg hne]
  | node j k c r ihc ihr =>
    obtain ⟨hjc, hjr, hc, hr, hdisj⟩ := nodup_node.mp hf
    simp only [subtree?] at hs
    split at hs
    · cases hs
      rw [ids, ids, List.append_nil, List.mem_cons] at hq
      by_cases hjq : j = q
      · simp [subtree?, hjq]
      · have hqr : r.subtree? q = none :=
          (subtree?_eq_none_iff q r).mpr fun h =>
            hdisj (hq.resolve_left (Ne.symm hjq)) h
        simp [subtree?, hjq, hqr]
    · rcases Option.or_eq_some_iff.mp hs with hs | ⟨-, hs⟩
      · have hqc := ids_subtree?_subset hs hq
        have hjq : j ≠ q := fun h => hjc (h ▸ hqc)
        have hqr : r.subtree? q = none := (subtree?_eq_none_iff q r).mpr
          fun h => hdisj hqc h
        rw [ihc hc hs, subtree?, if_neg hjq, hqr, Option.or_none]
      · have hqr := ids_subtree?_subset hs hq
        have hjq : j ≠ q := fun h => hjr (h ▸ hqr)
        have hqc : c.subtree? q = none := (subtree?_eq_none_iff q c).mpr
          fun h => hdisj h hqr
        rw [ihr hr hs, subtree?, if_neg hjq, hqc, Option.none_or]

end TreeLint.Forest
