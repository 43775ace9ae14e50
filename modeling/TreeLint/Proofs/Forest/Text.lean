import TreeLint.Proofs.Forest.Tokens

/-!
# The text of a forest

The text of a forest is that of its tokens, and a node starts behind the
text of the tokens before it. With where the tokens are around a node
(`Around`) these say what text there is before it, under it and behind it. A
tree that is put among the children of a node leaves the tree it is put
before where it was, and one that is put last comes right behind the text of
the node.

Specification, §3: offsets of violations are places in this text.
-/

namespace TreeLint

/-- The text of tokens, one after the other. -/
def Token.texts : List Token → String
  | [] => ""
  | tok :: toks => tok.text ++ Token.texts toks

theorem Token.texts_append (toks toks' : List Token) :
    Token.texts (toks ++ toks') = Token.texts toks ++ Token.texts toks' := by
  induction toks with
  | nil => simp [texts]
  | cons tok toks ih => simp [texts, ih, String.append_assoc]

namespace Forest

variable {n p : NodeId} {i : Nat} {f s x : Forest} {pre post : List Token}

/-- **The text of a forest is the texts of its tokens in document order**
(specification, §3). -/
theorem text_eq (f : Forest) : f.text = Token.texts f.tokens := by
  induction f with
  | nil => rfl
  | token i k y r ih => simp [text, tokens, Token.texts, ih]
  | node i k c r ihc ihr => simp [text, tokens, Token.texts_append, ihc, ihr]

theorem byteLength_eq (f : Forest) : f.byteLength = f.text.utf8ByteSize := by
  induction f with
  | nil => rfl
  | token i k y r ih => simp [byteLength, text, ih]
  | node i k c r ihc ihr => simp [byteLength, text, ihc, ihr]

theorem offset?_of_not_mem (h : n ∉ f.ids) : f.offset? n = none := by
  refine search_of_not_mem rfl (fun i k y r hi hr => ?_)
    (fun i k c r hi _ hc hr => ?_) h
  · simp [offset?, hi, hr]
  · simp [offset?, hi, hc, hr]

/-- A tree that is put behind all outermost ones. -/
theorem insertAt_length (x f : Forest) :
    insertAt x f.roots.length f = f.append x := by
  induction f with
  | nil => simp [insertAt, roots, append, append_nil]
  | token i k y r ih => simp [insertAt, roots, append, ih]
  | node i k c r _ ih => simp [insertAt, roots, append, ih]

namespace Around

theorem offset? (h : Around n f pre s post) :
    f.offset? n = some (Token.texts pre).utf8ByteSize := by
  induction h with
  | token | node => simp [Forest.offset?, Token.texts]
  | behindToken hi _ ih => simp [Forest.offset?, hi, ih, Token.texts]
  | inside hi _ ih => simp [Forest.offset?, hi, ih]
  | behindNode hi hc _ ih =>
    simp [Forest.offset?, hi, ih, offset?_of_not_mem hc, Token.texts_append,
      byteLength_eq, text_eq]

/-- A tree that is put before or behind an outermost one. -/
theorem insertAt (h : Around n f pre s post) (hf : f.ids.Nodup)
    (hi : f.roots[i]? = some n) :
    (n ∉ x.ids → Around n (insertAt x i f) (pre ++ x.tokens) s post) ∧
      Around n (insertAt x (i + 1) f) pre s (x.tokens ++ post) := by
  -- By induction on where the node stands, with the index counting down to
  -- it. Inside a tree it cannot stand: it is a root.
  induction h generalizing i with
  | token k y r =>
    cases i with
    | zero =>
      refine ⟨fun hx => ?_, tokens_append x r ▸ .token k y (x.append r)⟩
      simpa [Forest.insertAt] using (Around.token k y r).append hx
    | succ j =>
      exact absurd (mem_ids_of_mem_roots
        (List.mem_of_getElem? (l := r.roots) hi)) (nodup_token.mp hf).1
  | node k c r =>
    cases i with
    | zero =>
      refine ⟨fun hx => ?_, tokens_append x r ▸ .node k c (x.append r)⟩
      simpa [Forest.insertAt] using (Around.node k c r).append hx
    | succ j =>
      exact absurd (mem_ids_of_mem_roots
        (List.mem_of_getElem? (l := r.roots) hi)) (nodup_node.mp hf).2.1
  | behindToken hne _ ih =>
    cases i with
    | zero => exact absurd (Option.some.inj hi) hne
    | succ j =>
      obtain ⟨hbefore, hbehind⟩ := ih (nodup_token.mp hf).2 hi
      exact ⟨fun hx => .behindToken hne (hbefore hx), .behindToken hne hbehind⟩
  | @inside _ _ _ r _ _ _ hne ha _ =>
    cases i with
    | zero => exact absurd (Option.some.inj hi) hne
    | succ j =>
      have hr := mem_ids_of_mem_roots (List.mem_of_getElem? (l := r.roots) hi)
      exact absurd hr ((nodup_node.mp hf).2.2.2.2 ha.mem)
  | behindNode hne hc _ ih =>
    cases i with
    | zero => exact absurd (Option.some.inj hi) hne
    | succ j =>
      obtain ⟨hbefore, hbehind⟩ := ih (nodup_node.mp hf).2.2.2.1 hi
      refine ⟨fun hx => ?_, .behindNode hne hc hbehind⟩
      rw [List.append_assoc]
      exact .behindNode hne hc (hbefore hx)

/-- **A tree that is put before or behind a child of a node** leaves the
child as it is. -/
theorem insertUnder (h : Around n f pre s post) (hf : f.ids.Nodup)
    (hi : (f.offspring p).roots[i]? = some n) :
    (n ∉ x.ids → Around n (insertUnder p i x f) (pre ++ x.tokens) s post) ∧
      Around n (insertUnder p (i + 1) x f) pre s (x.tokens ++ post) := by
  -- A child of `p` is a node, wherever `p` is found.
  have hchild : ∀ {g : Forest}, (g.offspring p).roots[i]? = some n →
      n ∈ g.ids := fun hg =>
    ids_offspring_subset p _ (mem_ids_of_mem_roots (List.mem_of_getElem? hg))
  -- By induction on where the node stands. It is below `p`, so it is itself
  -- the root of what is searched only in cases that contradict this.
  induction h with
  | token k y r =>
    rw [offspring_token] at hi
    split at hi
    · simp [roots] at hi
    · exact absurd (hchild hi) (nodup_token.mp hf).1
  | node k c r =>
    obtain ⟨hc, hr, -⟩ := nodup_node.mp hf
    rw [offspring_node] at hi
    split at hi
    · exact absurd (mem_ids_of_mem_roots (List.mem_of_getElem? hi)) hc
    · split at hi
      · exact absurd (hchild hi) hc
      · exact absurd (hchild hi) hr
  | behindToken hne _ ih =>
    rw [offspring_token] at hi
    split at hi
    · simp [roots] at hi
    · obtain ⟨hbefore, hbehind⟩ := ih (nodup_token.mp hf).2 hi
      exact ⟨fun hx => .behindToken hne (hbefore hx), .behindToken hne hbehind⟩
  | @inside j k c r s pre post hne ha ih =>
    obtain ⟨-, -, hc, -, hdisj⟩ := nodup_node.mp hf
    rw [offspring_node] at hi
    simp only [Forest.insertUnder, ← List.append_assoc]
    split at hi
    · -- Here `p` is found: the rest is a matter of its children.
      next hjp =>
      obtain ⟨hbefore, hbehind⟩ := ha.insertAt (x := x) hc hi
      rw [if_pos hjp, if_pos hjp]
      exact ⟨fun hx => .inside hne (hbefore hx), .inside hne hbehind⟩
    · next hjp =>
      rw [if_neg hjp, if_neg hjp]
      split at hi
      · next hpc =>
        have hpr : p ∉ r.ids := fun hm => hdisj hpc hm
        obtain ⟨hbefore, hbehind⟩ := ih hc hi
        rw [insertUnder_of_not_mem _ _ hpr, insertUnder_of_not_mem _ _ hpr]
        exact ⟨fun hx => .inside hne (hbefore hx), .inside hne hbehind⟩
      · exact absurd (hchild hi) (hdisj ha.mem)
  | @behindNode j k c r s pre post hne hn _ ih =>
    obtain ⟨-, -, -, hr, -⟩ := nodup_node.mp hf
    rw [offspring_node] at hi
    simp only [Forest.insertUnder]
    split at hi
    · exact absurd (mem_ids_of_mem_roots (List.mem_of_getElem? hi)) hn
    · next hjp =>
      rw [if_neg hjp, if_neg hjp]
      split at hi
      · exact absurd (hchild hi) hn
      · next hpc =>
        obtain ⟨hbefore, hbehind⟩ := ih hr hi
        rw [insertUnder_of_not_mem _ _ hpc, insertUnder_of_not_mem _ _ hpc,
          List.append_assoc]
        exact ⟨fun hx => .behindNode hne hn (hbefore hx),
          .behindNode hne hn hbehind⟩

/-- **A tree that is put last under a node** comes right behind what the
node covered. -/
theorem tokens_insertUnder_last {k : Kind} {c : Forest}
    (h : Around p f pre (.node p k c .nil) post) (hf : f.ids.Nodup) :
    (Forest.insertUnder p c.roots.length x f).tokens =
      pre ++ c.tokens ++ x.tokens ++ post := by
  generalize hs : Forest.node p k c .nil = s at h
  induction h with
  | token => cases hs
  | node =>
    cases hs
    simp [Forest.insertUnder, insertAt_length, tokens, tokens_append]
  | behindToken _ _ ih =>
    simp [Forest.insertUnder, tokens, ih (nodup_token.mp hf).2 hs]
  | @inside i k c r s pre post hne ha ih =>
    obtain ⟨-, -, hc, -, hdisj⟩ := nodup_node.mp hf
    have hr : p ∉ r.ids := fun hm => hdisj ha.mem hm
    simp [Forest.insertUnder, hne, tokens, ih hc hs,
      insertUnder_of_not_mem _ _ hr]
  | @behindNode i k c r s pre post hne hn _ ih =>
    obtain ⟨-, -, -, hr, -⟩ := nodup_node.mp hf
    simp [Forest.insertUnder, hne, tokens, ih hr hs,
      insertUnder_of_not_mem _ _ hn]

end Around

end Forest

end TreeLint
