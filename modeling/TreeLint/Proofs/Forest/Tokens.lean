import TreeLint.Proofs.Forest.Inverse

/-!
# Tokens in document order

Where the tokens of a tree stand among those of a forest:
`Around n f pre s post` says that the tree of `n` in `f` is `s`, with the
tokens `pre` before it and `post` after it. Taking the tree out leaves
`pre ++ post` (`Around.tokens_remove`), and putting another one before or
behind it adds that one's tokens right there (`Around.tokens_insertUnder`).
This is all that is needed to follow a tree which is moved.

Some kinds of nodes may be known to be tokens everywhere in a forest
(`Atomic`). Putting together what is already there never changes that.

Most of what a rule may change does not concern every token. `pick` reads
off the tokens of some kinds, leaving out what stands below nodes of some
kinds, and is the same after every change in which nothing picked is
involved.

Specification, §3: the text of a file is the text of these tokens.
-/

namespace TreeLint.Forest

variable {f g c r s x : Forest} {n p m : NodeId} {i : Nat}
  {pre post : List Token}

theorem tokens_append (f g : Forest) :
    (f.append g).tokens = f.tokens ++ g.tokens := by
  induction f with
  | nil => rfl
  | token i k y r ih => simp [append, tokens, ih]
  | node i k c r _ ih => simp [append, tokens, ih]

theorem mem_tokens_iff_labels {tok : Token} :
    tok ∈ f.tokens ↔ (tok.id, tok.kind, some tok.text) ∈ f.labels := by
  induction f with
  | nil => simp [tokens, labels]
  | token i k y r ih => cases tok; simp_all [tokens, labels]
  | node i k c r ihc ihr => simp [tokens, labels, ihc, ihr]

/-- The tokens of a forest are the nodes that looking up finds to be tokens. -/
theorem mem_tokens_iff (h : f.ids.Nodup) {tok : Token} :
    tok ∈ f.tokens ↔ f.subtree? tok.id =
      some (.token tok.id tok.kind tok.text .nil) := by
  rw [mem_tokens_iff_labels, mem_labels_iff h]
  constructor
  · rintro ⟨s, hs, hk, hy⟩
    rcases eq_of_roots_eq_singleton (roots_subtree? hs) with ⟨k, y,
      rfl⟩ | ⟨k, c, rfl⟩
    · cases hk
      cases hy
      exact hs
    · cases hy
  · intro hs
    exact ⟨_, hs, rfl, rfl⟩

theorem map_id_tokens_sublist (f : Forest) :
    (f.tokens.map Token.id).Sublist f.ids := by
  induction f with
  | nil => exact .slnil
  | token i k y r ih => exact ih.cons_cons i
  | node i k c r ihc ihr =>
    simp only [tokens, ids, List.map_append]
    exact (ihc.append ihr).cons i

theorem nodup_tokens (h : f.ids.Nodup) : (f.tokens.map Token.id).Nodup :=
  h.sublist (map_id_tokens_sublist f)

/-- In a list of tokens without repetition there is one way to cut it at a
token. -/
theorem cut_unique {l pre' post' : List Token} {tok : Token}
    (h : (l.map Token.id).Nodup) (hl : l = pre ++ tok :: post)
    (hl' : l = pre' ++ tok :: post') : pre = pre' ∧ post = post' := by
  have hnodup : (pre ++ tok :: post).Nodup := hl ▸ h.of_map _
  have hpre : tok ∉ pre :=
    fun hm => List.disjoint_of_nodup_append hnodup hm List.mem_cons_self
  have hpost : tok ∉ post := (List.nodup_cons.mp hnodup.of_append_right).1
  have heq := (List.append_cons_inj_of_notMem hpre hpost).mp (hl.symm.trans hl')
  exact ⟨heq.1, heq.2.2⟩

/-! ## Around a node -/

/-- The tree of `n` in a forest, with the tokens before and after it. -/
inductive Around (n : NodeId) : Forest → List Token → Forest → List Token → Prop
  | token (k : Kind) (y : String) (r : Forest) :
      Around n (.token n k y r) [] (.token n k y .nil) r.tokens
  | node (k : Kind) (c r : Forest) :
    Around n (.node n k c r) [] (.node n k c .nil) r.tokens
  | behindToken {i : NodeId} {k : Kind} {y : String} {r s : Forest}
      {pre post : List Token} (hi : i ≠ n) (h : Around n r pre s post) :
      Around n (.token i k y r) (⟨i, k, y⟩ :: pre) s post
  | inside {i : NodeId} {k : Kind} {c r s : Forest} {pre post : List Token}
      (hi : i ≠ n) (h : Around n c pre s post) :
      Around n (.node i k c r) pre s (post ++ r.tokens)
  | behindNode {i : NodeId} {k : Kind} {c r s : Forest}
      {pre post : List Token} (hi : i ≠ n) (hc : n ∉ c.ids)
      (h : Around n r pre s post) :
      Around n (.node i k c r) (c.tokens ++ pre) s post

/-- Every node has a place: what stands before it, its tree, and what stands
behind it. -/
theorem exists_around (h : n ∈ f.ids) :
    ∃ pre s post, Around n f pre s post := by
  induction f with
  | nil => cases h
  | token i k y r ih =>
    by_cases hi : i = n
    · subst hi
      exact ⟨_, _, _, .token k y r⟩
    · obtain ⟨pre, s, post, ha⟩ :=
        ih ((List.mem_cons.mp h).resolve_left (Ne.symm hi))
      exact ⟨_, _, _, .behindToken hi ha⟩
  | node i k c r ihc ihr =>
    by_cases hi : i = n
    · subst hi
      exact ⟨_, _, _, .node k c r⟩
    · by_cases hc : n ∈ c.ids
      · obtain ⟨pre, s, post, ha⟩ := ihc hc
        exact ⟨_, _, _, .inside hi ha⟩
      · have hr : n ∈ r.ids := by
          simp only [ids, List.mem_cons, List.mem_append] at h
          exact (h.resolve_left (Ne.symm hi)).resolve_left hc
        obtain ⟨pre, s, post, ha⟩ := ihr hr
        exact ⟨_, _, _, .behindNode hi hc ha⟩

theorem tokensBefore?_of_not_mem (h : n ∉ f.ids) :
    f.tokensBefore? n = none := by
  refine search_of_not_mem rfl (fun i k y r hi hr => ?_)
    (fun i k c r hi _ hc hr => ?_) h
  · simp [tokensBefore?, hi, hr]
  · simp [tokensBefore?, hi, hc, hr]

theorem tokensAfter?_of_not_mem (h : n ∉ f.ids) :
    f.tokensAfter? n = none := by
  refine search_of_not_mem rfl (fun i k y r hi hr => ?_)
    (fun i k c r hi _ hc hr => ?_) h
  · simp [tokensAfter?, hi, hr]
  · simp [tokensAfter?, hi, hc, hr]

theorem component?_of_not_mem (h : n ∉ f.ids) : f.component? n = none := by
  refine search_of_not_mem rfl (fun i k y r hi hr => ?_)
    (fun i k c r hi hc _ hr => ?_) h
  · simp [component?, hi, hr]
  · simp [component?, hi, contains_iff_mem, hc, hr]

/-- Which outermost tree holds a node, for two forests in a row. -/
theorem component?_append (n : NodeId) (f g : Forest) :
    (f.append g).component? n = (f.component? n).or (g.component? n) := by
  induction f with
  | nil => rfl
  | token i k y r ih =>
    simp only [append, component?]
    split
    · rfl
    · exact ih
  | node i k c r _ ih =>
    simp only [append, component?]
    split
    · rfl
    · exact ih

/-- The outermost tree that holds a node is part of the forest. -/
theorem ids_component?_subset (h : f.component? n = some g) :
    g.ids ⊆ f.ids := by
  induction f with
  | nil => cases h
  | token i k y r ih =>
    simp only [component?] at h
    split at h
    · cases h
      simp [ids]
    · exact List.subset_cons_of_subset _ (ih h)
  | node i k c r _ ih =>
    simp only [component?] at h
    split at h
    · cases h
      simp [ids]
    · exact List.subset_cons_of_subset _
        (List.subset_append_of_subset_right _ (ih h))

namespace Around

theorem subtree? (h : Around n f pre s post) : f.subtree? n = some s := by
  induction h with
  | token | node => simp [Forest.subtree?]
  | behindToken hi _ ih => simp [Forest.subtree?, hi, ih]
  | inside hi _ ih => simp [Forest.subtree?, hi, ih]
  | behindNode hi hc _ ih =>
    simp [Forest.subtree?, hi, ih, (subtree?_eq_none_iff _ _).mpr hc]

theorem mem (h : Around n f pre s post) : n ∈ f.ids :=
  mem_of_subtree? h.subtree?

theorem tokensBefore? (h : Around n f pre s post) :
    f.tokensBefore? n = some pre.reverse := by
  induction h with
  | token | node => simp [Forest.tokensBefore?]
  | behindToken hi _ ih => simp [Forest.tokensBefore?, hi, ih]
  | inside hi _ ih => simp [Forest.tokensBefore?, hi, ih]
  | behindNode hi hc _ ih =>
    simp [Forest.tokensBefore?, hi, ih, tokensBefore?_of_not_mem hc]

theorem tokensAfter? (h : Around n f pre s post) :
    f.tokensAfter? n = some post := by
  induction h with
  | token | node => simp [Forest.tokensAfter?]
  | behindToken hi _ ih => simp [Forest.tokensAfter?, hi, ih]
  | inside hi _ ih => simp [Forest.tokensAfter?, hi, ih]
  | behindNode hi hc _ ih =>
    simp [Forest.tokensAfter?, hi, ih, tokensAfter?_of_not_mem hc]

theorem tokens_eq (h : Around n f pre s post) :
    f.tokens = pre ++ s.tokens ++ post := by
  induction h with
  | token | node => simp [tokens]
  | behindToken _ _ ih => simp [tokens, ih]
  | inside _ _ ih => simp [tokens, ih]
  | behindNode _ _ _ ih => simp [tokens, ih]

theorem pre_eq {pre' post' : List Token} {s' : Forest}
    (h : Around n f pre s post)
    (h' : Around n f pre' s' post') : pre = pre' := by
  have heq := h.tokensBefore?.symm.trans h'.tokensBefore?
  simpa using heq

/-- Taking a tree out takes its tokens out. -/
theorem tokens_remove (h : Around n f pre s post) (hf : f.ids.Nodup) :
    (f.remove n).tokens = pre ++ post := by
  induction h with
  | token | node => simp [remove]
  | behindToken hi _ ih => simp [remove, hi, tokens, ih (nodup_token.mp hf).2]
  | @inside i k c r s pre post hi ha ih =>
    obtain ⟨-, -, hc, -, hdisj⟩ := nodup_node.mp hf
    have hr : n ∉ r.ids := fun hm => hdisj ha.mem hm
    simp [remove, hi, tokens, ih hc, remove_of_not_mem hr]
  | @behindNode i k c r s pre post hi hn _ ih =>
    obtain ⟨-, -, -, hr, -⟩ := nodup_node.mp hf
    simp [remove, hi, tokens, ih hr, remove_of_not_mem hn]

/-- A new text for a token changes that token in the list and nothing else.
-/
theorem tokens_setText {k : Kind} {y : String}
    (h : Around n f pre (.token n k y .nil) post) (hf : f.ids.Nodup)
    (z : String) : (f.setText n z).tokens = pre ++ ⟨n, k, z⟩ :: post := by
  generalize hs : Forest.token n k y .nil = s at h
  induction h with
  | token =>
    cases hs
    simp [setText, tokens]
  | node => cases hs
  | behindToken hi _ ih =>
    simp [setText, hi, tokens, ih (nodup_token.mp hf).2 hs]
  | @inside i k c r s pre post hi ha ih =>
    obtain ⟨-, -, hc, -, hdisj⟩ := nodup_node.mp hf
    have hr : n ∉ r.ids := fun hm => hdisj ha.mem hm
    simp [setText, tokens, ih hc hs, setText_of_not_mem z hr]
  | @behindNode i k c r s pre post hi hn _ ih =>
    obtain ⟨-, -, -, hr, -⟩ := nodup_node.mp hf
    simp [setText, tokens, ih hr hs, setText_of_not_mem z hn]

/-- Trees in front push the place of a node back. -/
theorem append (h : Around n g pre s post) (hf : n ∉ f.ids) :
    Around n (f.append g) (f.tokens ++ pre) s post := by
  induction f with
  | nil => exact h
  | token i k y r ih =>
    simp only [ids, List.mem_cons, not_or] at hf
    exact .behindToken (Ne.symm hf.1) (ih hf.2)
  | node i k c r _ ih =>
    simp only [ids, List.mem_cons, List.mem_append, not_or] at hf
    rw [tokens, List.append_assoc]
    exact .behindNode (Ne.symm hf.1) hf.2.1 (ih hf.2.2)

/-! ### Putting a tree next to a node -/

/-- Next to one of the outermost trees. -/
theorem tokens_insertAt (h : Around n f pre s post) (hf : f.ids.Nodup)
    (hi : f.roots[i]? = some n) :
    (insertAt x i f).tokens = pre ++ x.tokens ++ s.tokens ++ post ∧
      (insertAt x (i + 1) f).tokens = pre ++ s.tokens ++ x.tokens ++ post := by
  -- By induction on where the node stands, with the index counting down to
  -- it.
  induction h generalizing i with
  | token k y r =>
    have hr := (nodup_token.mp hf).1
    cases i with
    | zero => simp [insertAt, tokens, tokens_append]
    | succ j =>
      exact absurd (mem_ids_of_mem_roots
        (List.mem_of_getElem? (l := r.roots) hi)) hr
  | node k c r =>
    have hr := (nodup_node.mp hf).2.1
    cases i with
    | zero => simp [insertAt, tokens, tokens_append]
    | succ j =>
      exact absurd (mem_ids_of_mem_roots
        (List.mem_of_getElem? (l := r.roots) hi)) hr
  | behindToken hne _ ih =>
    cases i with
    | zero => exact absurd (Option.some.inj hi) hne
    | succ j =>
      obtain ⟨h₁, h₂⟩ := ih (nodup_token.mp hf).2 hi
      simp [insertAt, tokens, h₁, h₂]
  | @inside _ _ _ r _ _ _ hne ha ih =>
    cases i with
    | zero => exact absurd (Option.some.inj hi) hne
    | succ j =>
      have hr := mem_ids_of_mem_roots (List.mem_of_getElem? (l := r.roots) hi)
      exact absurd hr ((nodup_node.mp hf).2.2.2.2 ha.mem)
  | behindNode hne _ _ ih =>
    cases i with
    | zero => exact absurd (Option.some.inj hi) hne
    | succ j =>
      obtain ⟨h₁, h₂⟩ := ih (nodup_node.mp hf).2.2.2.1 hi
      simp [insertAt, tokens, h₁, h₂]

/-- **Next to a child of a node**: at the index of the child right before
it, at the next index right behind it. -/
theorem tokens_insertUnder (h : Around n f pre s post) (hf : f.ids.Nodup)
    (hi : (f.offspring p).roots[i]? = some n) :
    (insertUnder p i x f).tokens = pre ++ x.tokens ++ s.tokens ++ post ∧
      (insertUnder p (i + 1) x f).tokens =
        pre ++ s.tokens ++ x.tokens ++ post := by
  have hchild : ∀ {g : Forest}, (g.offspring p).roots[i]? = some n →
      n ∈ g.ids := fun hg =>
    ids_offspring_subset p _ (mem_ids_of_mem_roots (List.mem_of_getElem? hg))
  -- As for `tokens_insertAt`, down to the node `p`; the node cannot stand
  -- elsewhere.
  induction h with
  | token k y r =>
    rw [offspring_token] at hi
    split at hi
    · simp [roots] at hi
    · exact absurd (hchild hi) (nodup_token.mp hf).1
  | node k c r =>
    obtain ⟨hc, hr, -⟩ := nodup_node.mp hf
    rw [offspring_node] at hi
    split at hi
    · exact absurd (mem_ids_of_mem_roots (List.mem_of_getElem? hi)) hc
    · split at hi
      · exact absurd (hchild hi) hc
      · exact absurd (hchild hi) hr
  | behindToken hne _ ih =>
    rw [offspring_token] at hi
    split at hi
    · simp [roots] at hi
    · obtain ⟨h₁, h₂⟩ := ih (nodup_token.mp hf).2 hi
      simp [insertUnder, tokens, h₁, h₂]
  | @inside j k c r s pre post hne ha ih =>
    obtain ⟨-, -, hc, -, hdisj⟩ := nodup_node.mp hf
    rw [offspring_node] at hi
    split at hi
    · next hjp =>
      obtain ⟨h₁, h₂⟩ := ha.tokens_insertAt (x := x) hc hi
      simp [insertUnder, hjp, tokens, h₁, h₂]
    · next hjp =>
      split at hi
      · next hpc =>
        have hpr : p ∉ r.ids := fun hm => hdisj hpc hm
        obtain ⟨h₁, h₂⟩ := ih hc hi
        simp [insertUnder, hjp, tokens, h₁, h₂, insertUnder_of_not_mem _ _ hpr]
      · exact absurd (hchild hi) (hdisj ha.mem)
  | @behindNode j k c r s pre post hne hn _ ih =>
    obtain ⟨-, -, -, hr, -⟩ := nodup_node.mp hf
    rw [offspring_node] at hi
    split at hi
    · exact absurd (mem_ids_of_mem_roots (List.mem_of_getElem? hi)) hn
    · next hjp =>
      split at hi
      · exact absurd (hchild hi) hn
      · next hpc =>
        obtain ⟨h₁, h₂⟩ := ih hr hi
        simp [insertUnder, hjp, tokens, h₁, h₂, insertUnder_of_not_mem _ _ hpc]

end Around

theorem mem_of_mem_tokensAfter? {tok : Token}
    (h : tok ∈ (f.tokensAfter? n).getD []) : tok ∈ f.tokens := by
  by_cases hn : n ∈ f.ids
  · obtain ⟨pre, s, post, ha⟩ := exists_around hn
    rw [ha.tokensAfter?, Option.getD_some] at h
    rw [ha.tokens_eq]
    exact List.mem_append_right _ h
  · simp [tokensAfter?_of_not_mem hn] at h

/-- Wherever a tree is put among the outermost ones, its tokens come to
stand together between two parts of the others. -/
theorem tokens_insertAt_cases (x : Forest) (i : Nat) (f : Forest) :
    ∃ pre post, f.tokens = pre ++ post ∧
      (insertAt x i f).tokens = pre ++ x.tokens ++ post := by
  induction f generalizing i with
  | nil =>
    exact ⟨[], [], rfl, by cases i <;> simp [insertAt, tokens_append, tokens]⟩
  | token j k y r ih =>
    cases i with
    | zero => exact ⟨[], _, rfl, by simp [insertAt, tokens_append, tokens]⟩
    | succ i =>
      obtain ⟨pre, post, hpre, hpost⟩ := ih i
      exact ⟨⟨j, k, y⟩ :: pre,
        post, by simp [tokens, hpre], by simp [insertAt, tokens, hpost]⟩
  | node j k c r _ ih =>
    cases i with
    | zero => exact ⟨[], _, rfl, by simp [insertAt, tokens_append, tokens]⟩
    | succ i =>
      obtain ⟨pre, post, hpre, hpost⟩ := ih i
      exact ⟨c.tokens ++ pre, post, by simp [tokens, hpre], by simp [insertAt,
        tokens, hpost]⟩

/-- A tree that is put under a node has its tokens in one place, or nowhere
if there is no such node. -/
theorem tokens_insertUnder_cases (x : Forest) (p : NodeId) (i : Nat)
    (hf : f.ids.Nodup) :
    (insertUnder p i x f).tokens = f.tokens ∨
      ∃ pre post, f.tokens = pre ++ post ∧ (insertUnder p i x f).tokens = pre ++
        x.tokens ++ post := by
  induction f with
  | nil => exact Or.inl rfl
  | token j k y r ih =>
    rcases ih (nodup_token.mp hf).2 with hr | ⟨pre, post, hpre, hpost⟩
    · exact Or.inl (by simp [insertUnder, tokens, hr])
    · exact Or.inr ⟨⟨j, k, y⟩ :: pre,
        post, by simp [tokens, hpre], by simp [insertUnder, tokens, hpost]⟩
  | node j k c r ihc ihr =>
    obtain ⟨-, -, hc, hr, hdisj⟩ := nodup_node.mp hf
    simp only [insertUnder]
    split
    · obtain ⟨pre, post, hpre, hpost⟩ := tokens_insertAt_cases x i c
      exact Or.inr ⟨pre, post ++
        r.tokens, by simp [tokens, hpre], by simp [tokens, hpost]⟩
    · -- The node is among the children or behind them, if it is there at
      -- all.
      by_cases hpc : p ∈ c.ids
      · have hpr : p ∉ r.ids := fun hm => hdisj hpc hm
        rw [insertUnder_of_not_mem i x hpr]
        rcases ihc hc with hsame | ⟨pre, post, hpre, hpost⟩
        · exact Or.inl (by simp [tokens, hsame])
        · exact Or.inr ⟨pre, post ++
            r.tokens, by simp [tokens, hpre], by simp [tokens, hpost]⟩
      · rw [insertUnder_of_not_mem i x hpc]
        rcases ihr hr with hsame | ⟨pre, post, hpre, hpost⟩
        · exact Or.inl (by simp [tokens, hsame])
        · exact Or.inr ⟨c.tokens ++ pre,
            post, by simp [tokens, hpre], by simp [tokens, hpost]⟩

namespace Around

/-! ### Siblings -/

/-- The tokens before a child end with those before it among the children. -/
theorem of_child (h : Around n f pre s post) (hf : f.ids.Nodup)
    (hn : n ∈ (f.offspring p).roots) :
    ∃ above pre' post', Around n (f.offspring p) pre' s post' ∧
      pre = above ++ pre' := by
  have hchild : ∀ {g : Forest}, n ∈ (g.offspring p).roots →
      n ∈ g.ids := fun hg =>
    ids_offspring_subset p _ (mem_ids_of_mem_roots hg)
  -- By induction on where the node stands. Tokens that are passed on the
  -- way down to `p` are those `above`.
  induction h with
  | token k y r =>
    rw [offspring_token] at hn
    split at hn
    · cases hn
    · exact absurd (hchild hn) (nodup_token.mp hf).1
  | node k c r =>
    obtain ⟨hc, hr, -⟩ := nodup_node.mp hf
    rw [offspring_node] at hn
    split at hn
    · exact absurd (mem_ids_of_mem_roots hn) hc
    · split at hn
      · exact absurd (hchild hn) hc
      · exact absurd (hchild hn) hr
  | @behindToken j k y r s pre post hne _ ih =>
    rw [offspring_token] at hn ⊢
    split at hn
    · cases hn
    · next hjp =>
      obtain ⟨above, pre', post', ha, rfl⟩ := ih (nodup_token.mp hf).2 hn
      rw [if_neg hjp]
      exact ⟨⟨j, k, y⟩ :: above, pre', post', ha, rfl⟩
  | @inside j k c r s pre post hne ha ih =>
    obtain ⟨-, -, hc, -, hdisj⟩ := nodup_node.mp hf
    rw [offspring_node] at hn ⊢
    split at hn
    · next hjp =>
      rw [if_pos hjp]
      exact ⟨[], pre, post, ha, rfl⟩
    · next hjp =>
      rw [if_neg hjp]
      split at hn
      · next hpc =>
        rw [if_pos hpc]
        exact ih hc hn
      · exact absurd (hchild hn) (hdisj ha.mem)
  | @behindNode j k c r s pre post hne hnc _ ih =>
    obtain ⟨-, -, -, hr, -⟩ := nodup_node.mp hf
    rw [offspring_node] at hn ⊢
    split at hn
    · exact absurd (mem_ids_of_mem_roots hn) hnc
    · next hjp =>
      rw [if_neg hjp]
      split at hn
      · exact absurd (hchild hn) hnc
      · next hpc =>
        obtain ⟨above, pre', post', ha, rfl⟩ := ih hr hn
        rw [if_neg hpc]
        exact ⟨c.tokens ++ above, pre', post', ha,
          (List.append_assoc _ _ _).symm⟩

end Around

/-- What stands below a node is found in the whole forest as it is found
there. -/
theorem subtree?_offspring (hf : f.ids.Nodup) (hm : m ∈ (f.offspring p).ids) :
    (f.offspring p).subtree? m = f.subtree? m := by
  induction f with
  | nil => rfl
  | token i k y r ih =>
    obtain ⟨hi, hr⟩ := nodup_token.mp hf
    rw [offspring_token] at hm ⊢
    split at hm
    · cases hm
    · next hip =>
      have him : i ≠ m := by
        rintro rfl
        exact hi (ids_offspring_subset p r hm)
      rw [if_neg hip, ih hr hm, subtree?, if_neg him]
  | node i k c r ihc ihr =>
    obtain ⟨hic, hir, hc, hr, hdisj⟩ := nodup_node.mp hf
    -- A tree among the children is found there first.
    have hfound : m ∈ c.ids → (Forest.node i k c r).subtree? m =
        c.subtree? m := by
      intro hmc
      obtain ⟨s, hs⟩ := exists_subtree hmc
      have him : i ≠ m := by
        rintro rfl
        exact hic hmc
      rw [subtree?, if_neg him, hs]
      rfl
    rw [offspring_node] at hm ⊢
    split at hm
    · next hip => rw [if_pos hip, hfound hm]
    · next hip =>
      rw [if_neg hip]
      split at hm
      · next hpc =>
          rw [if_pos hpc, ihc hc hm, hfound (ids_offspring_subset p c hm)]
      · next hpc =>
        have hmr := ids_offspring_subset p r hm
        have him : i ≠ m := by
          rintro rfl
          exact hir hmr
        have hmc : c.subtree? m = none := (subtree?_eq_none_iff m c).mpr
          fun hmc => hdisj hmc hmr
        rw [if_neg hpc, ihr hr hm, subtree?, if_neg him, hmc, Option.none_or]

/-- A list that is made tree by tree, of what stands below a node. -/
theorem flatMap_offspring {α : Type} {view : Forest → List α}
    (hnil : view .nil = [])
    (happend : ∀ f g, view (f.append g) = view f ++ view g) (hf : f.ids.Nodup)
    (p : NodeId) :
    view (f.offspring p) = (f.offspring p).roots.flatMap fun m =>
      view ((f.subtree? m).getD .nil) := by
  rw [flatMap_roots hnil happend (nodup_offspring p hf)]
  refine List.flatMap_congr fun m hm => ?_
  rw [subtree?_offspring hf (mem_ids_of_mem_roots hm)]

/-- A forest can be cut between any two of its outermost trees. -/
theorem exists_append_of_roots {as bs : List NodeId} (h : f.roots = as ++ bs) :
    ∃ f₁ f₂ : Forest, f = f₁.append f₂ ∧ f₁.roots = as ∧ f₂.roots = bs := by
  induction as generalizing f with
  | nil => exact ⟨.nil, f, rfl, rfl, h⟩
  | cons a as ih =>
    cases f with
    | nil => cases h
    | token i k y r =>
      obtain ⟨hi, hr⟩ := List.cons.inj h
      obtain ⟨f₁, f₂, rfl, rfl, hbs⟩ := ih hr
      exact ⟨.token i k y f₁, f₂, rfl, by rw [roots, hi], hbs⟩
    | node i k c r =>
      obtain ⟨hi, hr⟩ := List.cons.inj h
      obtain ⟨f₁, f₂, rfl, rfl, hbs⟩ := ih hr
      exact ⟨.node i k c f₁, f₂, rfl, by rw [roots, hi], hbs⟩

/-- If the outermost trees before a node are single tokens, they are the
tokens before it. -/
theorem Around.pre_of_leaves {ms ns : List NodeId} (h : Around n f pre s post)
    (hf : f.ids.Nodup) (hroots : f.roots = ms ++ n :: ns)
    (hleaf : ∀ m ∈ ms, ∃ k y, f.subtree? m = some (.token m k y .nil)) :
    pre.map Token.id = ms := by
  -- By induction on the siblings in front; each is one token.
  induction ms generalizing f pre with
  | nil =>
    cases h with
    | token | node => rfl
    | behindToken hi | inside hi | behindNode hi =>
      exact absurd (List.cons.inj hroots).1 hi
  | cons m ms ih =>
    obtain ⟨k, y, hm⟩ := hleaf m List.mem_cons_self
    have hmn : m ≠ n := by
      rintro rfl
      have hnodup := nodup_roots hf
      rw [hroots] at hnodup
      simp at hnodup
    cases f with
    | nil => cases hroots
    | token i k' y' r =>
      obtain ⟨rfl, hr⟩ := List.cons.inj hroots
      obtain ⟨hir, hnodup⟩ := nodup_token.mp hf
      cases h with
      | token => exact absurd rfl hmn
      | behindToken _ h =>
        rw [List.map_cons, ih h hnodup hr fun m' hm' => ?_]
        have hne : i ≠ m' := by
          rintro rfl
          exact hir (mem_ids_of_mem_roots
            (by rw [hr]; exact List.mem_append_left _ hm'))
        simpa [Forest.subtree?, hne] using hleaf m' (List.mem_cons_of_mem _ hm')
    | node i k' c r =>
      obtain ⟨rfl, -⟩ := List.cons.inj hroots
      simp [Forest.subtree?] at hm

/-- Siblings right before a node that are single tokens are the tokens right
before it. -/
theorem Around.pre_of_siblings {far ms back : List NodeId}
    (h : Around n f pre s post) (hf : f.ids.Nodup)
    (hroots : (f.offspring p).roots = far ++ (ms ++ n :: back))
    (hleaf : ∀ m ∈ ms, ∃ k y, f.subtree? m = some (.token m k y .nil)) :
    ∃ above near, pre = above ++ near ∧ near.map Token.id = ms := by
  obtain ⟨above, inner, outer, hinner, rfl⟩ :=
    h.of_child (p := p) hf (by simp [hroots])
  -- Leave out the children further in front; what is left has only tokens
  -- before the node.
  obtain ⟨f₁, f₂, happend, -, hf₂⟩ := exists_append_of_roots hroots
  have hnodup := nodup_offspring p hf
  rw [happend, ids_append] at hnodup
  have hout : ∀ m ∈ f₂.ids, m ∉ f₁.ids := fun m hm hm' =>
    List.disjoint_of_nodup_append hnodup hm' hm
  have hroot : ∀ m ∈ ms ++ n :: back, m ∈ f₂.ids := fun m hm =>
    mem_ids_of_mem_roots (hf₂ ▸ hm)
  obtain ⟨near, s₂, post₂, h₂⟩ := exists_around (hroot n (by simp))
  refine ⟨above ++ f₁.tokens, near, ?_,
    h₂.pre_of_leaves hnodup.of_append_right hf₂ fun m hm => ?_⟩
  · rw [happend] at hinner
    rw [hinner.pre_eq (h₂.append (hout n h₂.mem)), List.append_assoc]
  · have hm₂ := hroot m (List.mem_append_left _ hm)
    have hmp : m ∈ (f.offspring p).ids := by
      rw [happend, ids_append]
      exact List.mem_append_right _ hm₂
    have hsub := subtree?_offspring hf hmp
    rw [happend, subtree?_append, (subtree?_eq_none_iff m f₁).mpr (hout m hm₂),
      Option.none_or] at hsub
    rw [hsub]
    exact hleaf m hm

/-! ## Kinds of tokens -/

theorem mem_labels_insertAt {l : NodeId × Kind × Option String}
    (h : l ∈ (insertAt x i f).labels) :
    l ∈ x.labels ∨ l ∈ f.labels := by
  rw [(labels_insertAt x i f).mem_iff] at h
  simpa using h

/-- No label comes out of nowhere when a tree is put under a node, whether
that is there or not. -/
theorem mem_labels_insertUnder {l : NodeId × Kind × Option String}
    (h : l ∈ (insertUnder p i x f).labels) : l ∈ x.labels ∨ l ∈ f.labels := by
  induction f with
  | nil => cases h
  | token j k y r ih =>
    simp only [insertUnder, labels, List.mem_cons] at h ⊢
    tauto
  | node j k c r ihc ihr =>
    simp only [insertUnder] at h
    split at h
    · simp only [labels, List.mem_cons, List.mem_append] at h ⊢
      have := mem_labels_insertAt (x := x) (i := i) (f := c) (l := l)
      tauto
    · simp only [labels, List.mem_cons, List.mem_append] at h ⊢
      tauto

/-- Every node with a kind that passes a test is a token. -/
def Atomic (test : Kind → Bool) (f : Forest) : Prop :=
  ∀ l ∈ f.labels, test l.2.1 = true → l.2.2.isSome = true

instance (test : Kind → Bool) (f : Forest) : Decidable (f.Atomic test) :=
  inferInstanceAs (Decidable (∀ l ∈ f.labels, test l.2.1 = true →
    l.2.2.isSome = true))

namespace Atomic

variable {test : Kind → Bool}

theorem token {k : Kind} {y : String} (h : r.Atomic test) :
    (Forest.token n k y r).Atomic test := by
  intro l hl htest
  rcases List.mem_cons.mp hl with rfl | hl
  · rfl
  · exact h l hl htest

/-- What is found under such a kind is a token. -/
theorem eq_token {k : Kind} (h : f.Atomic test) (hf : f.ids.Nodup)
    (hs : f.subtree? n = some s) (hk : s.rootKind? = some k)
    (htest : test k = true) : ∃ y, s = .token n k y .nil := by
  have hsome := h _ ((mem_labels_iff hf).mpr ⟨s, hs, hk, rfl⟩) htest
  rcases eq_of_roots_eq_singleton (roots_subtree? hs) with ⟨k', y,
    rfl⟩ | ⟨k', c, rfl⟩
  · cases hk
    exact ⟨y, rfl⟩
  · cases hsome

theorem insertUnder (h : f.Atomic test) (hx : x.Atomic test) (p : NodeId)
    (i : Nat) :
    (Forest.insertUnder p i x f).Atomic test := by
  intro l hl
  rcases mem_labels_insertUnder hl with hl | hl
  · exact hx l hl
  · exact h l hl

theorem subtree (h : f.Atomic test) (hf : f.ids.Nodup)
    (hs : f.subtree? n = some s) : s.Atomic test :=
  fun l hl =>
    h l ((labels_remove hf hs).mem_iff.mpr (List.mem_append_left _ hl))

theorem remove (h : f.Atomic test) (hf : f.ids.Nodup)
    (hs : f.subtree? n = some s) :
    (f.remove n).Atomic test :=
  fun l hl =>
    h l ((labels_remove hf hs).mem_iff.mpr (List.mem_append_right _ hl))

/-- A new text turns no token into a composite node. -/
theorem setText (h : f.Atomic test) (n : NodeId) (z : String) :
    (f.setText n z).Atomic test := by
  induction f with
  | nil => exact h
  | token j k y r ih =>
    have hr : r.Atomic test := fun l hl => h l (List.mem_cons_of_mem _ hl)
    simp only [Forest.setText]
    split
    · exact hr.token
    · exact (ih hr).token
  | node j k c r ihc ihr =>
    obtain ⟨hroot, hrest⟩ := List.forall_mem_cons.mp h
    obtain ⟨hc, hr⟩ := List.forall_mem_append.mp hrest
    exact List.forall_mem_cons.mpr
      ⟨hroot, List.forall_mem_append.mpr ⟨ihc hc, ihr hr⟩⟩

end Atomic

/-! ## Picking tokens -/

/-- The tokens of some kinds that do not stand below a node of some other
kinds. -/
def pick (keep skip : Kind → Bool) : Forest → List Token
  | .nil => []
  | .token i k y r =>
    if keep k then ⟨i, k, y⟩ :: r.pick keep skip else r.pick keep skip
  | .node _ k c r =>
    (if skip k then [] else c.pick keep skip) ++ r.pick keep skip

section Pick

variable {keep skip : Kind → Bool}

theorem pick_never (keep : Kind → Bool) (f : Forest) :
    f.pick keep (fun _ => false) = f.tokens.filter fun tok =>
      keep tok.kind := by
  induction f with
  | nil => rfl
  | token i k y r ih => simp [pick, tokens, List.filter_cons, ih]
  | node i k c r ihc ihr => simp [pick, tokens, ihc, ihr]

/-- Skipping nodes only leaves tokens out. -/
theorem pick_sublist (keep skip : Kind → Bool) (f : Forest) :
    (f.pick keep skip).Sublist (f.pick keep fun _ => false) := by
  induction f with
  | nil => exact .slnil
  | token i k y r ih =>
    simp only [pick]
    split
    · exact ih.cons_cons _
    · exact ih
  | node i k c r ihc ihr =>
    simp only [pick]
    refine List.Sublist.append ?_ ihr
    split
    · exact List.nil_sublist _
    · exact ihc

theorem pick_append (f g : Forest) :
    (f.append g).pick keep skip = f.pick keep skip ++ g.pick keep skip := by
  induction f with
  | nil => rfl
  | token i k y r ih =>
    simp only [append, pick, ih]
    split <;> rfl
  | node i k c r _ ih => simp [append, pick, ih]

theorem pick_insertAt (hx : x.pick keep skip = []) (i : Nat) (f : Forest) :
    (insertAt x i f).pick keep skip = f.pick keep skip := by
  induction f generalizing i with
  | nil => cases i <;> simp [insertAt, append_nil, hx, pick]
  | token j k y r ih => cases i <;> simp [insertAt, pick_append, hx, pick, ih]
  | node j k c r _ ih => cases i <;> simp [insertAt, pick_append, hx, pick, ih]

theorem pick_insertUnder (hx : x.pick keep skip = []) (p : NodeId) (i : Nat)
    (f : Forest) :
    (insertUnder p i x f).pick keep skip = f.pick keep skip := by
  induction f with
  | nil => rfl
  | token j k y r ih => simp [insertUnder, pick, ih]
  | node j k c r ihc ihr =>
    simp only [insertUnder]
    split
    · simp only [pick, pick_insertAt hx]
    · simp only [pick, ihc, ihr]

/-- A tree with nothing to pick can be taken out unnoticed. -/
theorem pick_remove (hf : f.ids.Nodup) (hs : f.subtree? n = some s)
    (hpick : s.pick keep skip = []) :
    (f.remove n).pick keep skip = f.pick keep skip := by
  induction f with
  | nil => rfl
  | token i k y r ih =>
    simp only [subtree?] at hs
    split at hs
    · next hi =>
      cases hs
      simp only [pick] at hpick
      split at hpick
      · cases hpick
      · next hk => simp [remove, hi, pick, hk]
    · next hi => simp [remove, hi, pick, ih (nodup_token.mp hf).2 hs]
  | node i k c r ihc ihr =>
    obtain ⟨-, -, hc, hr, hdisj⟩ := nodup_node.mp hf
    simp only [subtree?] at hs
    split at hs
    · next hi =>
      cases hs
      simp only [pick, List.append_nil] at hpick
      simp [remove, hi, pick, hpick]
    · next hi =>
      -- The tree is among the children or behind; the other part does not
      -- have it.
      rcases Option.or_eq_some_iff.mp hs with hs | ⟨hnone, hs⟩
      · have hnr : n ∉ r.ids := fun hm => hdisj (mem_of_subtree? hs) hm
        simp [remove, hi, pick, ihc hc hs, remove_of_not_mem hnr]
      · have hnc : n ∉ c.ids := (subtree?_eq_none_iff n c).mp hnone
        simp [remove, hi, pick, ihr hr hs, remove_of_not_mem hnc]

/-- So can a token that is not picked be given another text. -/
theorem pick_setText {k : Kind} {y : String} (hf : f.ids.Nodup)
    (hs : f.subtree? n = some (.token n k y .nil)) (hk : keep k = false)
    (z : String) :
    (f.setText n z).pick keep skip = f.pick keep skip := by
  induction f with
  | nil => rfl
  | token j l w r ih =>
    simp only [subtree?] at hs
    split at hs
    · next hj =>
      cases hs
      simp [setText, pick, hk]
    · next hj => simp [setText, hj, pick, ih (nodup_token.mp hf).2 hs]
  | node j l c r ihc ihr =>
    obtain ⟨-, -, hc, hr, hdisj⟩ := nodup_node.mp hf
    simp only [subtree?] at hs
    split at hs
    · cases hs
    · rcases Option.or_eq_some_iff.mp hs with hs | ⟨hnone, hs⟩
      · have hnr : n ∉ r.ids := fun hm => hdisj (mem_of_subtree? hs) hm
        simp [setText, pick, ihc hc hs, setText_of_not_mem _ hnr]
      · have hnc : n ∉ c.ids := (subtree?_eq_none_iff n c).mp hnone
        simp [setText, pick, ihr hr hs, setText_of_not_mem _ hnc]

end Pick

end TreeLint.Forest
