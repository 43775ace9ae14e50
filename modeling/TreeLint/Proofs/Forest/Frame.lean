import TreeLint.Proofs.Forest.Inverse
import TreeLint.Proofs.Forest.Order

/-!
# What stays in its place

Taking a tree out of a forest leaves everything else as it is: labels, order
and the nodes above (`KeepsBut`). Putting a tree in is the reverse of taking
it out, so it does the same, and so does a move, which is one after the
other.

If a tree is put back under the node it was taken from, the listing changes
only among what stands below that node (`labels_insertUnder_remove`).

Edits are made in place (specification, §3), and these lemmas say what each
of them leaves alone.
-/

namespace TreeLint.Forest

variable {f g h s : Forest} {n m p z : NodeId} {S : List NodeId}

/-- The tokens are those nodes that have a text. -/
theorem tokens_eq_filterMap (f : Forest) :
    f.tokens = f.labels.filterMap fun l => l.2.2.map (Token.mk l.1 l.2.1) := by
  induction f with
  | nil => rfl
  | token i k y r ih => simp [tokens, labels, ih]
  | node i k c r ihc ihr => simp [tokens, labels, ihc, ihr]

/-- All nodes but some keep their labels, their order and the nodes above
them. -/
structure KeepsBut (S : List NodeId) (f g : Forest) : Prop where
  labels : (g.labels.filter fun l => !S.contains l.1) = f.labels.filter fun l =>
    !S.contains l.1
  above : ∀ m, m ∉ S → g.ancestors? m = f.ancestors? m

namespace KeepsBut

theorem refl (S : List NodeId) (f : Forest) : KeepsBut S f f :=
  ⟨rfl, fun _ _ => rfl⟩

theorem symm (hfg : KeepsBut S f g) : KeepsBut S g f :=
  ⟨hfg.labels.symm, fun m hm => (hfg.above m hm).symm⟩

theorem trans (hfg : KeepsBut S f g) (hgh : KeepsBut S g h) : KeepsBut S f h :=
  ⟨hgh.labels.trans hfg.labels, fun m hm =>
    (hgh.above m hm).trans (hfg.above m hm)⟩

theorem mem_labels_iff (hfg : KeepsBut S f g)
    {l : NodeId × Kind × Option String} (hl : l.1 ∉ S) :
    l ∈ g.labels ↔ l ∈ f.labels := by
  have hfilter := congrArg (l ∈ ·) hfg.labels
  simpa [hl] using hfilter

theorem ids_eq (hfg : KeepsBut S f g) :
    (g.ids.filter fun m => !S.contains m) = f.ids.filter fun m =>
      !S.contains m := by
  rw [← map_fst_labels, ← map_fst_labels, List.filter_map, List.filter_map]
  exact congrArg _ hfg.labels

theorem mem_iff (hfg : KeepsBut S f g) (hm : m ∉ S) :
    m ∈ g.ids ↔ m ∈ f.ids := by
  have hfilter := congrArg (m ∈ ·) hfg.ids_eq
  simpa [hm] using hfilter

theorem precedes {x y : NodeId} (hfg : KeepsBut S f g) (hx : x ∉ S) (hy : y ∉ S)
    (hxy : f.Precedes x y) : g.Precedes x y :=
  hxy.of_filter_eq hfg.ids_eq (by simpa using hx) (by simpa using hy)

/-- Outside the exceptions both have the same tokens in the same order. -/
theorem tokens_eq (hfg : KeepsBut S f g) :
    (g.tokens.filter fun tok => !S.contains tok.id) = f.tokens.filter fun tok =>
      !S.contains tok.id := by
  rw [tokens_eq_filterMap, tokens_eq_filterMap f]
  have hkept : ∀ h : Forest,
      ((h.labels.filterMap fun l => l.2.2.map (Token.mk l.1 l.2.1)).filter
        fun tok =>
      !S.contains tok.id) =
        (h.labels.filter fun l => !S.contains l.1).filterMap fun l =>
            l.2.2.map (Token.mk l.1 l.2.1) := by
    intro h
    rw [List.filter_filterMap, List.filterMap_filter]
    refine List.filterMap_congr fun l _ => ?_
    obtain ⟨m, k, y⟩ := l
    cases y <;> simp [Option.filter_some]
  rw [hkept, hkept, hfg.labels]

end KeepsBut

/-! ## Taking out and putting in -/

theorem filter_labels_eq_nil (h : f.ids ⊆ S) :
    (f.labels.filter fun l => !S.contains l.1) = [] := by
  rw [List.filter_eq_nil_iff]
  intro l hl
  have hid : l.1 ∈ f.ids := by
    rw [← map_fst_labels]
    exact List.mem_map_of_mem hl
  simpa using h hid

/-- Taking a tree out keeps the order of everything else. -/
theorem labels_remove_filter (hf : f.ids.Nodup) (hs : f.subtree? n = some s) :
    ((f.remove n).labels.filter fun l => !s.ids.contains l.1) = f.labels.filter
      fun l => !s.ids.contains l.1 := by
  induction f with
  | nil => cases hs
  | token j k y r ih =>
    simp only [subtree?] at hs
    split at hs
    · next hj =>
      cases hs
      simp [remove, hj, labels, ids]
    · next hj =>
      simp only [remove, if_neg hj, labels, List.filter_cons,
        ih (nodup_token.mp hf).2 hs]
  | node j k c r ihc ihr =>
    obtain ⟨-, -, hc, hr, hdisj⟩ := nodup_node.mp hf
    simp only [subtree?] at hs
    split at hs
    · next hj =>
      cases hs
      have hgone : (c.labels.filter fun l =>
          !(Forest.node j k c .nil).ids.contains l.1) = [] :=
        filter_labels_eq_nil fun m hm => by simp [ids, hm]
      rw [remove, if_pos hj, labels, List.filter_cons, if_neg (by simp [ids]),
        List.filter_append, hgone,
        List.nil_append]
    · next hj =>
      -- The tree is among the children or behind; the other part is left
      -- alone, since no identity occurs twice.
      rcases Option.or_eq_some_iff.mp hs with hs | ⟨hnone, hs⟩
      · have hnr : n ∉ r.ids := fun hn => hdisj (mem_of_subtree? hs) hn
        simp only [remove, if_neg hj, remove_of_not_mem hnr, labels,
          List.filter_cons, List.filter_append, ihc hc hs]
      · have hnc : n ∉ c.ids := (subtree?_eq_none_iff n c).mp hnone
        simp only [remove, if_neg hj, remove_of_not_mem hnc, labels,
          List.filter_cons, List.filter_append, ihr hr hs]

/-- Whoever is not taken out keeps the nodes above it. -/
theorem ancestors?_remove (hf : f.ids.Nodup) (hs : f.subtree? n = some s)
    (hm : m ∉ s.ids) :
    (f.remove n).ancestors? m = f.ancestors? m := by
  have hmn : n ≠ m := fun h => hm (h ▸ mem_ids_of_roots_eq (roots_subtree? hs))
  induction f with
  | nil => rfl
  | token j k y r ih =>
    simp only [subtree?] at hs
    split at hs
    · -- What was taken out is not above the other node, so the answer came
      -- from behind it anyway.
      next hj => rw [remove, if_pos hj, ancestors?, if_neg (hj ▸ hmn)]
    · next hj =>
        simp only [remove, if_neg hj, ancestors?, ih (nodup_token.mp hf).2 hs]
  | node j k c r ihc ihr =>
    obtain ⟨-, -, hc, hr, hdisj⟩ := nodup_node.mp hf
    simp only [subtree?] at hs
    split at hs
    · next hj =>
      cases hs
      have hmc : c.ancestors? m = none := by
        rw [ancestors?_eq_none_iff]
        exact fun hmem => hm (by simp [ids, hmem])
      rw [remove, if_pos hj, ancestors?, if_neg (hj ▸ hmn), hmc]
    · next hj =>
      rcases Option.or_eq_some_iff.mp hs with hs | ⟨hnone, hs⟩
      · have hnr : n ∉ r.ids := fun hn => hdisj (mem_of_subtree? hs) hn
        simp only [remove, if_neg hj, remove_of_not_mem hnr,
          ancestors?, ihc hc hs]
      · have hnc : n ∉ c.ids := (subtree?_eq_none_iff n c).mp hnone
        simp only [remove, if_neg hj, remove_of_not_mem hnc,
          ancestors?, ihr hr hs]

/-- Taking a tree out. -/
theorem keepsBut_remove (hf : f.ids.Nodup) (hs : f.subtree? n = some s) :
    KeepsBut s.ids f (f.remove n) :=
  ⟨labels_remove_filter hf hs, fun _ hm => ancestors?_remove hf hs hm⟩

/-- Putting a tree in. -/
theorem keepsBut_insertUnder (p : NodeId) (i : Nat) (hroots : s.roots = [n])
    (hn : n ∉ f.ids) (hg : (insertUnder p i s f).ids.Nodup)
    (hs : n ∈ (insertUnder p i s f).ids →
      (insertUnder p i s f).subtree? n = some s) :
    KeepsBut s.ids f (insertUnder p i s f) := by
  have hback := remove_insertUnder p i hroots hn
  by_cases hmem : n ∈ (insertUnder p i s f).ids
  · have hkept := keepsBut_remove hg (hs hmem)
    rw [hback] at hkept
    exact hkept.symm
  · rw [remove_of_not_mem hmem] at hback
    rw [hback]
    exact .refl _ _

theorem ancestors?_setText (n : NodeId) (x : String) (f : Forest) (m : NodeId) :
    (f.setText n x).ancestors? m = f.ancestors? m := by
  induction f with
  | nil => rfl
  | token j k y r ih =>
    by_cases hj : j = n <;> simp [setText, hj, ancestors?, ih]
  | node j k c r ihc ihr => simp only [setText, ancestors?, ihc, ihr]

/-- Another text for a token. -/
theorem keepsBut_setText (n : NodeId) (x : String) (f : Forest) :
    KeepsBut [n] f (f.setText n x) := by
  refine ⟨?_, fun m _ => ancestors?_setText n x f m⟩
  induction f with
  | nil => rfl
  | token j k y r ih =>
    by_cases hj : j = n
    · simp [setText, hj, labels]
    · simp only [setText, if_neg hj, labels, List.filter_cons, ih]
  | node j k c r ihc ihr =>
    simp only [setText, labels, List.filter_cons, List.filter_append, ihc, ihr]

/-! ## Changing places with siblings -/

/-- A child of a node is taken out and put back under it. -/
theorem labels_insertUnder_remove (hf : f.ids.Nodup)
    (hn : n ∈ (f.offspring p).roots) (i : Nat) (s : Forest) :
    ∃ a b, f.labels = a ++ (f.offspring p).labels ++ b ∧
      (insertUnder p i s (f.remove n)).labels =
        a ++ (insertAt s i ((f.offspring p).remove n)).labels ++ b := by
  -- By induction on the forest. `a` and `b` are what stands in front of the
  -- children of `p` and behind them; neither changes.
  induction f with
  | nil => cases hn
  | token j k y r ih =>
    obtain ⟨hjr, hr⟩ := nodup_token.mp hf
    rw [offspring_token] at hn ⊢
    split at hn
    · cases hn
    · next hjp =>
      have hnr : n ∈ r.ids := ids_offspring_subset p r (mem_ids_of_mem_roots hn)
      have hjn : j ≠ n := fun h => hjr (h ▸ hnr)
      obtain ⟨a, b, hold, hnew⟩ := ih hr hn
      rw [if_neg hjp]
      exact ⟨(j, k, some y) :: a,
        b, by
        simp [labels, hold], by simp [remove, hjn, insertUnder, labels, hnew]⟩
  | node j k c r ihc ihr =>
    obtain ⟨hjc, hjr, hc, hr, hdisj⟩ := nodup_node.mp hf
    rw [offspring_node] at hn ⊢
    split at hn
    · next hjp =>
      have hnc : n ∈ c.ids := mem_ids_of_mem_roots hn
      have hjn : j ≠ n := fun h => hjc (h ▸ hnc)
      have hnr : n ∉ r.ids := fun h => hdisj hnc h
      rw [if_pos hjp]
      refine ⟨[(j, k, none)], r.labels, by simp [labels], ?_⟩
      simp only [remove, if_neg hjn, remove_of_not_mem hnr, insertUnder,
        if_pos hjp, labels, List.cons_append,
        List.nil_append]
    · next hjp =>
      rw [if_neg hjp]
      split at hn
      · next hpc =>
        have hnc : n ∈ c.ids := ids_offspring_subset p c
          (mem_ids_of_mem_roots hn)
        have hjn : j ≠ n := fun h => hjc (h ▸ hnc)
        have hnr : n ∉ r.ids := fun h => hdisj hnc h
        have hpr : p ∉ r.ids := fun h => hdisj hpc h
        obtain ⟨a, b, hold, hnew⟩ := ihc hc hn
        rw [if_pos hpc]
        refine ⟨(j, k, none) :: a, b ++ r.labels, by simp [labels, hold], ?_⟩
        simp [remove, hjn, insertUnder, hjp, labels, remove_of_not_mem hnr,
          insertUnder_of_not_mem i s hpr, hnew]
      · next hpc =>
        have hnr : n ∈ r.ids := ids_offspring_subset p r
          (mem_ids_of_mem_roots hn)
        have hjn : j ≠ n := fun h => hjr (h ▸ hnr)
        have hnc : n ∉ c.ids := fun h => hdisj h hnr
        obtain ⟨a, b, hold, hnew⟩ := ihr hr hn
        rw [if_neg hpc]
        refine ⟨(j, k, none) :: (c.labels ++ a), b, by simp [labels, hold], ?_⟩
        simp [remove, hjn, insertUnder, hjp, labels, remove_of_not_mem hnc,
          insertUnder_of_not_mem i s hpc, hnew]

/-- What is taken out of the back leaves the front alone. -/
theorem remove_append_right (hn : n ∉ f.ids) (g : Forest) :
    (f.append g).remove n = f.append (g.remove n) := by
  induction f with
  | nil => rfl
  | token j k y r ih =>
    rw [ids, List.mem_cons, not_or] at hn
    rw [append, remove, if_neg (Ne.symm hn.1), ih hn.2, append]
  | node j k c r _ ih =>
    rw [ids, List.mem_cons, List.mem_append, not_or, not_or] at hn
    rw [append, remove, if_neg (Ne.symm hn.1), remove_of_not_mem hn.2.1,
      ih hn.2.2, append]

/-- A forest of tokens only has no nodes below its outermost ones. -/
theorem ids_eq_roots (hf : f.ids.Nodup)
    (hleaf : ∀ m ∈ f.roots, ∃ k y, f.subtree? m = some (.token m k y .nil)) :
    f.ids = f.roots := by
  induction f with
  | nil => rfl
  | token j k y r ih =>
    obtain ⟨hj, hr⟩ := nodup_token.mp hf
    rw [ids, roots, ih hr fun m hm => ?_]
    have hne : j ≠ m := fun h => hj (h ▸ mem_ids_of_mem_roots hm)
    simpa [subtree?, hne] using hleaf m (List.mem_cons_of_mem _ hm)
  | node j k c r =>
    obtain ⟨k', y, hj⟩ := hleaf j List.mem_cons_self
    simp [subtree?] at hj

theorem insertAt_length_roots (s f g : Forest) :
    insertAt s f.roots.length (f.append g) = f.append (s.append g) := by
  induction f with
  | nil => rfl
  | token j k y r ih => simp [roots, append, insertAt, ih]
  | node j k c r _ ih => simp [roots, append, insertAt, ih]

/-- What is found in a part of the trees below a node is found in the whole
forest. -/
theorem subtree?_of_part {before part after : Forest} (hf : f.ids.Nodup)
    (h : f.offspring p = before.append (part.append after))
    (hm : m ∈ part.ids) : f.subtree? m = part.subtree? m := by
  have hnodup := nodup_offspring p hf
  rw [h, ids_append] at hnodup
  have hout : before.subtree? m = none := by
    rw [subtree?_eq_none_iff]
    exact fun hm' => List.disjoint_of_nodup_append hnodup hm' (by simp [hm])
  obtain ⟨s, hs⟩ := exists_subtree hm
  rw [← subtree?_offspring hf (p := p) (by simp [h, hm]), h, subtree?_append,
    hout, Option.none_or, subtree?_append, hs,
    Option.some_or]

/-- A child goes past siblings that are single tokens. -/
theorem labels_past_siblings {far mid back : List NodeId} (hf : f.ids.Nodup)
    (hroots : (f.offspring p).roots = far ++ (mid ++ n :: back))
    (hs : f.subtree? n = some s)
    (hleaf : ∀ m ∈ mid, ∃ k y, f.subtree? m = some (.token m k y .nil)) :
    ∃ a x b, x.map Prod.fst = mid ∧ f.labels = a ++ (x ++ s.labels) ++ b ∧
      (insertUnder p far.length s (f.remove n)).labels =
        a ++ (s.labels ++ x) ++ b := by
  -- Cut the children of `p` into four: those in front, the ones that are
  -- passed, the tree itself, and those behind.
  obtain ⟨front, rest, hcut, hfront, hrest⟩ := exists_append_of_roots hroots
  obtain ⟨between, rest, rfl, hbetween, hrest⟩ := exists_append_of_roots hrest
  obtain ⟨self, rear, rfl, hself, -⟩ :=
    exists_append_of_roots (show rest.roots = [n] ++ back from hrest)
  have hnodup := nodup_offspring p hf
  rw [hcut, ids_append, ids_append, ids_append] at hnodup
  have hn : n ∈ self.ids := mem_ids_of_mem_roots (by simp [hself])
  have hfar : n ∉ front.ids := fun hm => List.disjoint_of_nodup_append hnodup hm
    (by simp [hn])
  have hnear : n ∉ between.ids := fun hm =>
    List.disjoint_of_nodup_append hnodup.of_append_right hm
      (List.mem_append_left _ hn)
  have hfound : self = s := by
    have hcut' : f.offspring p = (front.append between).append
        (self.append rear) := by rw [hcut, append_assoc]
    have hsub := subtree?_of_part hf hcut' hn
    rw [hs, subtree?_of_roots_eq hself] at hsub
    exact (Option.some.inj hsub).symm
  subst hfound
  obtain ⟨a, b, hold, hnew⟩ := labels_insertUnder_remove hf (p := p) (n := n)
    (by simp [hroots]) far.length self
  -- The same four parts, with the second and third exchanged.
  refine ⟨a ++ front.labels, between.labels, rear.labels ++ b, ?_, ?_, ?_⟩
  · rw [map_fst_labels, ids_eq_roots hnodup.of_append_right.of_append_left
      fun m hm => ?_, hbetween]
    rw [← subtree?_of_part hf hcut (mem_ids_of_mem_roots hm)]
    exact hleaf m (hbetween ▸ hm)
  · simp [hold, hcut, labels_append]
  · rw [hnew, hcut, remove_append_right hfar, remove_append_right hnear,
      remove_append_tree hself, ← hfront,
      insertAt_length_roots]
    simp [labels_append]

end TreeLint.Forest
