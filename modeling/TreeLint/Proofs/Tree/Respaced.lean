import TreeLint.Proofs.Tree.Steady

/-!
# Edits of white space

Every edit of white space concerns one token: it is taken out of the
document, put into it, or given another text (`Respaced`). All else stays in
its place (`Respaced.steady`). White space that is put before a node comes
to stand before it, which is all that is needed about where it goes
(`respaced_spaceBefore`).

Specification, §13.
-/

namespace TreeLint.Tree

variable {t u : Tree} {m n p z : NodeId} {i : Nat} {x : String}
  {free : NodeId → Prop}

/-- One token of white space is taken out, put in, or given the text `x`. -/
structure Respaced (z : NodeId) (x : String) (t u : Tree) : Prop where
  sound : u.Sound
  keeps : Forest.KeepsBut [z] t.document u.document
  grows : t.count ≤ u.count
  old : z ∈ t.document.ids → t.kind? z = some .whitespace ∧ t.isLeaf z = true
  new : z ∈ u.document.ids → u.kind? z = some .whitespace ∧
    u.tokenText? z = some x
  fresh : z ∈ u.document.ids → z ∉ t.document.ids → t.count ≤ z
  parent : z ∈ t.document.ids → z ∈ u.document.ids → u.parent? z = t.parent? z

/-- White space that changes leaves code where it is. -/
theorem Respaced.steady (h : Respaced z x t u) (ht : t.Sound) :
    t.Steady free u := by
  refine .of_keepsBut ht h.sound h.keeps h.grows ?_ ?_ ?_
  · intro m hmS hm
    obtain rfl := List.mem_singleton.mp hmS
    refine Or.inl ?_
    rw [kindIs, (h.old hm).1]
    rfl
  · intro m hmS hm hout
    obtain rfl := List.mem_singleton.mp hmS
    obtain ⟨hkind, htext⟩ := h.new hm
    exact ⟨h.fresh hm hout, hkind, by rw [isLeaf, htext]; rfl⟩
  · intro m hmS hm hm'
    obtain rfl := List.mem_singleton.mp hmS
    obtain ⟨hkind, hleaf⟩ := h.old hm
    obtain ⟨hkind', htext⟩ := h.new hm'
    refine ⟨hkind'.trans hkind.symm, ?_, fun _ => h.parent hm hm'⟩
    rw [hleaf, isLeaf, htext]
    rfl

/-- Taking out a token of white space. -/
theorem respaced_detach (h : t.Sound) (hz : z ∈ t.document.ids)
    (hk : t.kind? z = some .whitespace) (hleaf : t.isLeaf z = true)
    (hok : (t.detach z).failure = none) (x : String) :
    Respaced z x t (t.detach z).tree := by
  obtain ⟨k, y, -, -, hs⟩ := document_subtree_of_token h hz hleaf
  obtain ⟨-, -, -, -, hdoc⟩ := detach_of_success h hok
  have hkeeps : Forest.KeepsBut [z] t.document (t.detach z).tree.document := by
    rw [hdoc]
    exact Forest.keepsBut_remove h.nodup_document hs
  have hout : z ∉ (t.detach z).tree.document.ids := by
    rw [hdoc]
    exact Forest.not_mem_remove h.nodup_document
  refine ⟨h.changes (changes_detach t z), hkeeps, ?_, fun _ => ⟨hk, hleaf⟩,
    fun hm => absurd hm hout,
    fun hm => absurd hm hout, fun _ hm => absurd hm hout⟩
  exact Nat.le_of_eq (Within.Changes.count (changes_detach t z)).symm

/-- Giving a token of white space another text. -/
theorem respaced_replaceText (h : t.Sound) (hz : z ∈ t.document.ids)
    (hk : t.kind? z = some .whitespace) (hleaf : t.isLeaf z = true)
    (x : String) : Respaced z x t (t.replaceText z x).tree := by
  obtain ⟨k, y, hkind, -, hs⟩ := document_subtree_of_token h hz hleaf
  rw [hk] at hkind
  cases hkind
  have hu : (t.replaceText z x).tree.Sound :=
    h.changes (changes_replaceText t z x)
  have hdoc := document_replaceText h hleaf x
  have hz' : z ∈ (t.replaceText z x).tree.document.ids := by
    rw [hdoc, Forest.ids_setText]
    exact hz
  have hlabel : (z, Kind.whitespace, some x) ∈
      (t.replaceText z x).tree.document.labels := by
    rw [Forest.mem_labels_iff hu.nodup_document, hdoc]
    exact ⟨_, Forest.subtree?_setText_self x hs, rfl, rfl⟩
  refine ⟨hu, ?_, ?_, fun _ => ⟨hk, hleaf⟩, fun _ =>
    (hu.mem_labels_document_iff.mp hlabel).2,
    fun _ hout => absurd hz hout, fun _ _ => ?_⟩
  · rw [hdoc]
    exact Forest.keepsBut_setText z x _
  · exact Nat.le_of_eq (Within.Changes.count (changes_replaceText t z x)).symm
  · have habove := Forest.ancestors?_setText z x t.document z
    rw [← hdoc, hu.ancestors?_document hz', h.ancestors?_document hz] at habove
    exact congrArg List.head? (Option.some.inj habove)

theorem ids_replaceText (h : t.Sound) (z : NodeId) (x : String) :
    (t.replaceText z x).tree.document.ids = t.document.ids := by
  unfold replaceText
  split
  · rw [document_congr (record_forest _ _), document_retext h,
      Forest.ids_setText]
  · rfl

/-- New white space is put under a node. -/
theorem respaced_insertChild (h : t.Sound)
    (hok : ((t.newToken .whitespace x).insertChild p i
      t.count).failure = none) :
    Respaced t.count x t ((t.newToken .whitespace x).insertChild p i
      t.count).tree := by
  have hv := sound_newToken h x
  have hu : ((t.newToken .whitespace x).insertChild p i t.count).tree.Sound :=
    hv.changes (changes_insertChild hv p i t.count)
  obtain ⟨g, hdoc⟩ := insertChild_of_success hv hok
  rw [document_newToken h, subtree_newToken h] at hdoc
  have hout : t.count ∉ t.document.ids :=
    fun hm => Nat.lt_irrefl _ (h.lt_count hm)
  have hself : t.count ∈ ((t.newToken .whitespace x).insertChild p i
      t.count).tree.document.ids →
      ((t.newToken .whitespace x).insertChild p i
        t.count).tree.document.subtree? t.count =
        some (.token t.count .whitespace x .nil) := by
    intro hm
    rw [hdoc] at hm ⊢
    by_cases hp : p ∈ t.document.ids
    · obtain ⟨k, d, hd⟩ := isComposite_of_not_isLeaf g.parent_exists
        g.parent_composite
      have hpv : p ∈ (t.newToken .whitespace x).document.ids := by
        rwa [document_newToken h]
      have hcomposite : t.document.IsComposite p := by
        refine ⟨k, d, ?_⟩
        rw [← document_newToken h x, hv.subtree?_document hpv,
          subtree_of_subtree? hd]
      exact Forest.subtree?_insertUnder_self i rfl hout hcomposite
    · rw [Forest.insertUnder_of_not_mem _ _ hp] at hm
      exact absurd hm hout
  have hlabel : t.count ∈ ((t.newToken .whitespace x).insertChild p i
      t.count).tree.document.ids →
      (t.count, Kind.whitespace, some x) ∈
        ((t.newToken .whitespace x).insertChild p i
            t.count).tree.document.labels := by
    intro hm
    rw [Forest.mem_labels_iff hu.nodup_document]
    exact ⟨_, hself hm, rfl, rfl⟩
  refine ⟨hu, ?_, ?_, fun hm => absurd hm hout, fun hm =>
    (hu.mem_labels_document_iff.mp (hlabel hm)).2,
    fun _ _ => Nat.le_refl _, fun hm => absurd hm hout⟩
  · have hnodup := hu.nodup_document
    rw [hdoc] at hnodup hself ⊢
    exact Forest.keepsBut_insertUnder p i rfl hout hnodup hself
  · rw [Within.Changes.count (changes_insertChild hv p i t.count)]
    exact Nat.le_succ _

/-! ## Next to a node -/

/-- White space in a gap next to a node, if it is not empty: the token there
gets the text, or a new one is attached. -/
theorem respaced_fillGap (h : t.Sound) {neighbour : Option NodeId}
    (attach : Tree → NodeId → Edited)
    (hneighbour : ∀ leaf, neighbour = some leaf → leaf ∈ t.document.ids ∧
      t.isLeaf leaf = true)
    (hx : x.isEmpty = false)
    (hattach : (attach (t.newToken .whitespace x) t.count).failure = none →
      ∃ p i, attach (t.newToken .whitespace x) t.count =
      (t.newToken .whitespace x).insertChild p i t.count)
    (hok : (t.fillGap neighbour x attach).failure = none) :
    ∃ z, Respaced z x t (t.fillGap neighbour x attach).tree ∧
      (neighbour = some z ∧ (t.fillGap neighbour x attach).tree.document.ids =
        t.document.ids ∨
        z = t.count ∧ t.fillGap neighbour x attach =
          attach (t.newToken .whitespace x) t.count) := by
  unfold fillGap at hok ⊢
  split at hok
  · next space hspace =>
    obtain ⟨hleaf, hk⟩ := Option.filter_eq_some_iff.mp hspace
    obtain ⟨hmem, htoken⟩ := hneighbour space hleaf
    rw [hx, if_neg Bool.false_ne_true]
    exact ⟨space, respaced_replaceText h hmem (beq_iff_eq.mp hk) htoken x,
      Or.inl ⟨hleaf, ids_replaceText h space x⟩⟩
  · rw [hx, if_neg Bool.false_ne_true] at hok ⊢
    obtain ⟨p, i, heq⟩ := hattach hok
    refine ⟨t.count, ?_, Or.inr ⟨rfl, rfl⟩⟩
    rw [heq] at hok ⊢
    exact respaced_insertChild h hok

theorem neighbour_leaf (h : t.Sound) (hn : n ∈ t.document.ids) {tok : Token}
    (htok : tok ∈ t.tokensBefore n ∨ tok ∈ t.tokensAfter n) :
    tok.id ∈ t.document.ids ∧ t.isLeaf tok.id = true :=
  ⟨(h.of_mem_tokens (h.mem_tokens_of_beside hn htok)).1,
    (beside_leaf h hn htok).1⟩

/-- White space put behind a node is new, or the text of a token that was
there. -/
theorem respaced_spaceAfter (h : t.Sound) (hn : n ∈ t.document.ids)
    (hx : x.isEmpty = false) (hok : (t.spaceAfter n x).failure = none) :
    ∃ z, Respaced z x t (t.spaceAfter n x).tree ∧
      (z ∉ t.document.ids ∨ (t.spaceAfter n x).tree.document.ids =
        t.document.ids) := by
  have hfill := respaced_fillGap h (fun t space => t.insertAfter n space)
    (fun leaf hleaf => ?_) hx
    (fun hok => ?_) hok
  · obtain ⟨z, hz, ⟨-, hids⟩ | ⟨rfl, -⟩⟩ := hfill
    · exact ⟨z, hz, Or.inr hids⟩
    · exact ⟨t.count, hz, Or.inl fun hm => Nat.lt_irrefl _ (h.lt_count hm)⟩
  · obtain ⟨tok, htok, rfl⟩ := Option.map_eq_some_iff.mp hleaf
    exact neighbour_leaf h hn (Or.inr (List.mem_of_head? htok))
  · unfold insertAfter at hok ⊢
    split at hok
    · next p i _ _ => exact ⟨p, i + 1, rfl⟩
    · cases hok

/-- A child that is put in stands before the one that was there. -/
theorem precedes_of_insertBefore (h : t.Sound) (hn : n ∈ t.document.ids)
    {c : NodeId} (hok : (t.insertBefore n c).failure = none) :
    (t.insertBefore n c).tree.document.Precedes c n := by
  obtain ⟨p, i, hp, hi, heq⟩ := insertBefore_of_success hok
  rw [heq] at hok ⊢
  have hu : (t.insertChild p i c).tree.Sound :=
    h.changes (changes_insertChild h p i c)
  obtain ⟨g, htree⟩ := insertChild_eq_graft h hok
  obtain ⟨-, hdoc⟩ := insertChild_of_success h hok
  have hkids : (t.insertChild p i c).tree.children p =
      (t.children p).take i ++ [c] ++ (t.children p).drop i := by
    rw [← g.children_parent h, htree, children, children, subtree, subtree,
      record_forest]
  obtain ⟨hlt, hget⟩ := List.getElem?_eq_some_iff.mp hi
  rw [List.drop_eq_getElem_cons hlt, hget] at hkids
  have hp' : p ∈ (t.insertChild p i c).tree.document.ids := by
    rw [hdoc]
    exact Forest.ids_subset_insertUnder _ _ _ _
      ((h.parent_mem_document_iff hp).mpr hn)
  have hroots := hu.offspring_document hp'
  rw [hkids] at hroots
  refine (Forest.precedes_iff_roots hu.nodup_document (p := p)
    (by simp [hroots]) (by simp [hroots])).mpr ?_
  rw [hroots, List.append_assoc]
  exact (List.Sublist.cons_cons c
    (List.Sublist.cons_cons n (List.nil_sublist _))).trans
    (List.sublist_append_right _ _)

/-- White space before a node comes to stand before it. -/
theorem respaced_spaceBefore (h : t.Sound) (hn : n ∈ t.document.ids)
    (hx : x.isEmpty = false) (hok : (t.spaceBefore n x).failure = none) :
    ∃ z, Respaced z x t (t.spaceBefore n x).tree ∧
      (t.spaceBefore n x).tree.document.Precedes z n ∧
      (z ∈ t.document.ids → t.document.Precedes z n) := by
  have hfill := respaced_fillGap h (fun t space => t.insertBefore n space)
    (fun leaf hleaf => ?_) hx
    (fun hok => ?_) hok
  · obtain ⟨z, hz, ⟨hprev, hids⟩ | ⟨rfl, heq⟩⟩ := hfill
    · obtain ⟨pre, post, ha⟩ := h.around hn
      obtain ⟨tok, htok, rfl⟩ := Option.map_eq_some_iff.mp hprev
      have hpre : tok ∈ pre := by
        rw [(h.tokens_of_around ha).1] at htok
        exact List.mem_reverse.mp (List.mem_of_head? htok)
      have hbefore := ha.precedes_of_mem_pre hpre
      refine ⟨tok.id, hz, ?_, fun _ => hbefore⟩
      rw [Forest.Precedes, spaceBefore, hids]
      exact hbefore
    · refine ⟨t.count, hz, ?_, fun hm =>
        absurd (h.lt_count hm) (Nat.lt_irrefl _)⟩
      rw [spaceBefore] at hok ⊢
      rw [heq] at hok ⊢
      refine precedes_of_insertBefore (sound_newToken h x) ?_ hok
      rwa [document_newToken h]
  · obtain ⟨tok, htok, rfl⟩ := Option.map_eq_some_iff.mp hleaf
    exact neighbour_leaf h hn (Or.inl (List.mem_of_head? htok))
  · obtain ⟨p, i, -, -, heq⟩ := insertBefore_of_success hok
    exact ⟨p, i, heq⟩

end TreeLint.Tree
