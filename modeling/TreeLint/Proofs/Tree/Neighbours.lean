import TreeLint.Proofs.Tree.Respaced
import Mathlib.Data.List.Find

/-!
# What stands next to a node

The neighbours of a node can be read off the document as a whole: its
children are the nodes that have it for a parent, in document order, and the
tokens before it are those that precede it. So if two documents differ in
one token of white space only, every question about neighbours that passes
over white space has the same answer in both (`Respaced`), and the tokens
before a node differ in that token only.

White space that is put right before a node is the nearest token before it
afterwards. For any other node the nearest token is what it was, unless it
is that white space (`SpacedBefore.nearest_or_same`).

The standard rules ask for the code next to a node (specification, §13).
-/

namespace TreeLint

/-! ## Lists with one entry left out

White space that comes, goes or changes is one entry of a list of siblings
or tokens. What a search finds does not depend on it, as long as the search
does not stop at it. -/

section Lists

variable {l l' : List NodeId} {m z : NodeId} {p q : NodeId → Bool}

/-- What stands before an entry, with another one left out. -/
theorem filter_takeWhile_ne (hm : m ≠ z) (l : List NodeId) :
    (l.takeWhile (· != m)).filter (· != z) =
      (l.filter (· != z)).takeWhile (· != m) := by
  induction l with
  | nil => rfl
  | cons a l ih =>
    by_cases ham : a = m
    · subst ham
      simp [hm]
    · by_cases haz : a = z
      · subst haz
        simp [ham, ih]
      · simp [ham, haz, ih]

/-- What stands behind an entry, with another one left out. -/
theorem filter_drop_dropWhile_ne (hm : m ≠ z) (l : List NodeId) :
    ((l.dropWhile (· != m)).drop 1).filter (· != z) =
      ((l.filter (· != z)).dropWhile (· != m)).drop 1 := by
  induction l with
  | nil => rfl
  | cons a l ih =>
    by_cases ham : a = m
    · subst ham
      simp [hm]
    · by_cases haz : a = z
      · subst haz
        simpa [ham] using ih
      · simpa [ham, haz] using ih

/-- Searching passes over an entry that fails the test. -/
theorem find?_filter_ne (hz : z ∈ l → p z = false) :
    (l.filter (· != z)).find? p = l.find? p := by
  rw [List.find?_filter]
  refine List.find?_congr fun m hm => ?_
  by_cases hmz : m = z
  · subst hmz
    simp [hz hm]
  · simp [hmz]

/-- **A search that does not stop at the entry finds the same with and
without it.** -/
theorem find?_of_filter_eq (h : l'.filter (· != z) = l.filter (· != z))
    (hz : z ∈ l → p z = false) (hz' : z ∈ l' → q z = false)
    (hpq : ∀ m ∈ l, m ≠ z → q m = p m) : l'.find? q = l.find? p := by
  rw [← find?_filter_ne hz', ← find?_filter_ne hz, h]
  refine List.find?_congr fun m hm => ?_
  obtain ⟨hm, hne⟩ := List.mem_filter.mp hm
  exact hpq m hm (by simpa using hne)

/-- A part of a list without repetition is found again by a test for its
entries. -/
theorem eq_filter_of_sublist (hl : l.Sublist l') (hnodup : l'.Nodup)
    (hp : ∀ m ∈ l', p m = true ↔ m ∈ l) : l = l'.filter p := by
  have hself : l.filter p = l := by
    rw [List.filter_eq_self]
    intro m hm
    exact (hp m (hl.subset hm)).mpr hm
  have hsub : l.Sublist (l'.filter p) := hself ▸ hl.filter p
  refine hsub.eq_of_length_le
    (List.Subperm.length_le (List.subperm_of_subset (hnodup.filter p)
      fun m hm => ?_))
  obtain ⟨hm, hpm⟩ := List.mem_filter.mp hm
  exact (hp m hm).mp hpm

end Lists

/-! ## Tokens before a node -/

namespace Forest

variable {f s : Forest} {n : NodeId} {pre post : List Token}

instance (f : Forest) (x y : NodeId) : Decidable (f.Precedes x y) :=
  inferInstanceAs (Decidable ([x, y].Sublist f.ids))

/-- The tokens before a node, said by the order of the document. -/
theorem Around.pre_eq_filter (h : Around n f pre s post) (hf : f.ids.Nodup) :
    pre = f.tokens.filter fun tok => decide (f.Precedes tok.id n) := by
  have hpre : pre.filter (fun tok => decide (f.Precedes tok.id n)) = pre := by
    rw [List.filter_eq_self]
    intro tok htok
    exact decide_eq_true (h.precedes_of_mem_pre htok)
  have hpost : post.filter (fun tok => decide (f.Precedes tok.id n)) = [] := by
    rw [List.filter_eq_nil_iff]
    intro tok htok hbefore
    exact (h.precedes_of_mem_post htok).asymm hf (of_decide_eq_true hbefore)
  -- the tokens of the tree itself are the node or come behind it
  have hown : s.tokens.filter (fun tok => decide (f.Precedes tok.id n)) =
      [] := by
    rw [List.filter_eq_nil_iff]
    intro tok htok hbefore
    have hbefore : f.Precedes tok.id n := of_decide_eq_true hbefore
    rcases eq_of_roots_eq_singleton (roots_subtree? h.subtree?) with ⟨k, y,
      rfl⟩ | ⟨k, c, rfl⟩
    · obtain rfl : tok = ⟨n, k, y⟩ := by simpa [tokens] using htok
      exact hbefore.ne hf rfl
    · have hbelow : tok ∈ c.tokens := by simpa [tokens] using htok
      have hafter : [n, tok.id].Sublist (Forest.node n k c .nil).ids := by
        refine List.Sublist.cons_cons n (List.singleton_sublist.mpr ?_)
        simpa [ids] using (map_id_tokens_sublist c).subset
          (List.mem_map_of_mem hbelow)
      exact hbefore.asymm hf (hafter.trans (ids_subtree?_sublist h.subtree?))
  rw [h.tokens_eq, List.filter_append, List.filter_append, hpre, hown, hpost]
  simp

theorem not_contains_singleton (m z : NodeId) :
    (!([z].contains m)) = (m != z) := by
  by_cases hm : m = z <;> simp [hm]

theorem KeepsBut.ids_filter_ne {z : NodeId} {g : Forest}
    (h : KeepsBut [z] f g) :
    g.ids.filter (· != z) = f.ids.filter (· != z) := by
  simpa only [not_contains_singleton] using h.ids_eq

theorem KeepsBut.tokens_filter_ne {z : NodeId} {g : Forest}
    (h : KeepsBut [z] f g) :
    g.tokens.filter (·.id != z) = f.tokens.filter (·.id != z) := by
  simpa only [not_contains_singleton] using h.tokens_eq

@[simp] theorem map_id_tokens_setText (n : NodeId) (x : String) (f : Forest) :
    (f.setText n x).tokens.map Token.id = f.tokens.map Token.id := by
  induction f with
  | nil => rfl
  | token i k y r ih =>
    simp only [setText]
    split <;> simp [tokens, ih]
  | node i k c r ihc ihr => simp [setText, tokens, ihc, ihr]

end Forest

end TreeLint

namespace TreeLint.Tree

variable {t u : Tree} {m n p z : NodeId} {x : String}

namespace Sound

/-- The children of a node are the nodes that have it for a parent. -/
theorem children_eq_filter (h : t.Sound) (hp : p ∈ t.document.ids) :
    t.children p = t.document.ids.filter fun m => t.parent? m == some p := by
  refine eq_filter_of_sublist ?_ h.nodup_document fun m _ => ?_
  · rw [← h.offspring_document hp]
    exact (Forest.roots_sublist_ids _).trans
      (List.sublist_of_cons_sublist (Forest.offspring_sublist hp))
  · rw [beq_iff_eq, h.parent?_eq_some_iff]

theorem tokensBefore_eq_filter (h : t.Sound) (hn : n ∈ t.document.ids) :
    t.tokensBefore n = (t.document.tokens.filter fun tok =>
      decide (t.document.Precedes tok.id n)).reverse := by
  obtain ⟨pre, post, ha⟩ := h.around hn
  rw [(h.tokens_of_around ha).1, ← ha.pre_eq_filter h.nodup_document]

end Sound

namespace Respaced

variable (h : Respaced z x t u) (ht : t.Sound)

include h

theorem mem_iff (hm : m ≠ z) : m ∈ u.document.ids ↔ m ∈ t.document.ids :=
  h.keeps.mem_iff (by simpa using hm)

/-- Before the edit, and after it, the token is white space. -/
theorem isTrivia (hz : z ∈ t.document.ids) :
    t.kindIs z Kind.isTrivia = true := by
  rw [kindIs, (h.old hz).1]
  rfl

theorem isTrivia' (hz : z ∈ u.document.ids) :
    u.kindIs z Kind.isTrivia = true := by
  rw [kindIs, (h.new hz).1]
  rfl

include ht

theorem kind?_eq (hm : m ∈ t.document.ids) (hm' : m ∈ u.document.ids) :
    u.kind? m = t.kind? m := by
  have hsteady : t.Steady (fun _ => False) u := h.steady ht
  exact (hsteady.label m hm hm').1

theorem kindIs_eq (hm : m ∈ t.document.ids) (hm' : m ∈ u.document.ids)
    (test : Kind → Bool) :
    u.kindIs m test = t.kindIs m test := by
  rw [kindIs, kindIs, h.kind?_eq ht hm hm']

theorem hasKind_eq (hm : m ∈ t.document.ids) (hm' : m ∈ u.document.ids)
    (k : Kind) :
    u.hasKind m k = t.hasKind m k := by
  rw [hasKind, hasKind, h.kind?_eq ht hm hm']

theorem parent?_eq (hm : m ∈ t.document.ids) (hm' : m ∈ u.document.ids) :
    u.parent? m = t.parent? m := by
  have hsteady : t.Steady (fun _ => False) u := h.steady ht
  exact hsteady.parent m hm hm' id

/-- The other children of a node stay, in their order. -/
theorem children_filter (hp : p ∈ t.document.ids) (hp' : p ∈ u.document.ids) :
    (u.children p).filter (· != z) = (t.children p).filter (· != z) := by
  have hparent : ∀ m ∈ t.document.ids.filter (· != z), (u.parent? m == some p) =
      (t.parent? m == some p) := by
    intro m hm
    obtain ⟨hm, hne⟩ := List.mem_filter.mp hm
    rw [h.parent?_eq ht hm ((h.mem_iff (by simpa using hne)).mpr hm)]
  calc (u.children p).filter (· != z)
      = (u.document.ids.filter (· != z)).filter (fun m => u.parent? m ==
          some p) := by
        rw [h.sound.children_eq_filter hp', List.filter_filter,
          List.filter_filter]
        simp only [Bool.and_comm]
    _ = (t.document.ids.filter (· != z)).filter (fun m => t.parent? m ==
        some p) := by
        rw [h.keeps.ids_filter_ne, List.filter_congr hparent]
    _ = (t.children p).filter (· != z) := by
        rw [ht.children_eq_filter hp, List.filter_filter, List.filter_filter]
        simp only [Bool.and_comm]

/-- The other tokens before a node stay, in their order. -/
theorem tokensBefore_filter (hn : n ∈ t.document.ids) (hne : n ≠ z) :
    (u.tokensBefore n).filter (·.id != z) =
      (t.tokensBefore n).filter (·.id != z) := by
  have hn' : n ∈ u.document.ids := (h.mem_iff hne).mpr hn
  have hbefore : ∀ tok ∈ t.document.tokens.filter (·.id != z),
      decide (u.document.Precedes tok.id n) =
          decide (t.document.Precedes tok.id n) := by
    intro tok htok
    have htok : tok.id ∉ [z] := by simpa using (List.mem_filter.mp htok).2
    have hn : n ∉ [z] := by simpa using hne
    exact decide_eq_decide.mpr ⟨h.keeps.symm.precedes htok hn,
      h.keeps.precedes htok hn⟩
  have hfilter : (u.document.tokens.filter fun tok =>
      decide (u.document.Precedes tok.id n)).filter (·.id != z) =
      (t.document.tokens.filter fun tok =>
          decide (t.document.Precedes tok.id n)).filter (·.id != z) := by
    calc _ = (u.document.tokens.filter (·.id != z)).filter fun tok =>
        decide (u.document.Precedes tok.id n) := by
          rw [List.filter_filter, List.filter_filter]
          simp only [Bool.and_comm]
      _ = (t.document.tokens.filter (·.id != z)).filter fun tok =>
          decide (t.document.Precedes tok.id n) := by
          rw [h.keeps.tokens_filter_ne, List.filter_congr hbefore]
      _ = _ := by
          rw [List.filter_filter, List.filter_filter]
          simp only [Bool.and_comm]
  rw [h.sound.tokensBefore_eq_filter hn', ht.tokensBefore_eq_filter hn,
    List.filter_reverse, List.filter_reverse,
    hfilter]

/-- The other siblings of a node stay, in their order. -/
theorem siblings_filter (hn : n ∈ t.document.ids) (hne : n ≠ z) :
    (u.siblings n).filter (· != z) = (t.siblings n).filter (· != z) := by
  have hn' : n ∈ u.document.ids := (h.mem_iff hne).mpr hn
  unfold siblings
  rw [h.parent?_eq ht hn hn']
  cases hp : t.parent? n with
  | none => rfl
  | some p =>
    have hp' : u.parent? n = some p := (h.parent?_eq ht hn hn').trans hp
    exact h.children_filter ht (ht.parent_mem_document hn hp)
      (h.sound.parent_mem_document hn' hp')

/-- Which siblings are code does not change. -/
theorem code_congr {l l' : List NodeId} (hl : ∀ m ∈ l, m ∈ t.document.ids)
    (hl' : ∀ m ∈ l', m ∈ u.document.ids)
    (heq : l'.filter (· != z) = l.filter (· != z)) :
    l'.find? (fun m => !u.kindIs m Kind.isTrivia) =
      l.find? (fun m => !t.kindIs m Kind.isTrivia) := by
  refine find?_of_filter_eq heq (fun hz => ?_) (fun hz => ?_) fun m hm hmz => ?_
  · rw [h.isTrivia (hl z hz)]
    rfl
  · rw [h.isTrivia' (hl' z hz)]
    rfl
  · rw [h.kindIs_eq ht (hl m hm) ((h.mem_iff hmz).mpr (hl m hm))]

/-- The code before a node among its siblings is the same: the search goes
past white space. -/
theorem prevCodeSibling?_eq (hn : n ∈ t.document.ids) (hne : n ≠ z) :
    u.prevCodeSibling? n = t.prevCodeSibling? n := by
  have hn' : n ∈ u.document.ids := (h.mem_iff hne).mpr hn
  refine h.code_congr ht (fun m hm => ht.siblingBefore_mem_document hn hm)
    (fun m hm => h.sound.siblingBefore_mem_document hn' hm) ?_
  simp only [siblingsBefore, List.filter_reverse, filter_takeWhile_ne hne,
    h.siblings_filter ht hn hne]

theorem nextCodeSibling?_eq (hn : n ∈ t.document.ids) (hne : n ≠ z) :
    u.nextCodeSibling? n = t.nextCodeSibling? n := by
  have hn' : n ∈ u.document.ids := (h.mem_iff hne).mpr hn
  refine h.code_congr ht (fun m hm => ht.siblingAfter_mem_document hn hm)
    (fun m hm => h.sound.siblingAfter_mem_document hn' hm) ?_
  simp only [siblingsAfter, filter_drop_dropWhile_ne hne,
    h.siblings_filter ht hn hne]

/-- The first child that is code. -/
theorem firstCodeChild_eq (hp : p ∈ t.document.ids) (hp' : p ∈ u.document.ids) :
    (u.children p).find? (fun c => !u.kindIs c Kind.isTrivia) =
      (t.children p).find? fun c => !t.kindIs c Kind.isTrivia :=
  h.code_congr ht (fun _ hm => ht.child_mem_document hp hm) (fun _ hm =>
    h.sound.child_mem_document hp' hm)
    (h.children_filter ht hp hp')

theorem childOfKind?_eq (hp : p ∈ t.document.ids) (hp' : p ∈ u.document.ids)
    {k : Kind} (hk : k ≠ .whitespace) :
    u.childOfKind? p k = t.childOfKind? p k := by
  refine find?_of_filter_eq (h.children_filter ht hp hp') (fun hz => ?_)
    (fun hz => ?_) fun m hm hmz => ?_
  · simpa [hasKind, (h.old (ht.child_mem_document hp hz)).1] using hk.symm
  · simpa [hasKind, (h.new (h.sound.child_mem_document hp' hz)).1] using hk.symm
  · have hm := ht.child_mem_document hp hm
    exact h.hasKind_eq ht hm ((h.mem_iff hmz).mpr hm) k

/-- No token of another kind is concerned. -/
theorem tokens_filter_kind :
    u.document.tokens.filter (·.kind != .whitespace) =
      t.document.tokens.filter (·.kind != .whitespace) := by
  -- a token that is not white space is not the one that was edited
  have hskip : ∀ {v : Tree}, v.Sound →
      (z ∈ v.document.ids → v.kind? z = some .whitespace) →
      v.document.tokens.filter (·.kind != .whitespace) =
        (v.document.tokens.filter (·.id != z)).filter
            (·.kind != .whitespace) := by
    intro v hv hz
    rw [List.filter_filter]
    refine List.filter_congr fun tok htok => ?_
    by_cases hid : tok.id = z
    · obtain ⟨hmem, hkind, -⟩ := hv.of_mem_tokens htok
      rw [hid] at hmem hkind
      have hspace : tok.kind = .whitespace :=
        Option.some.inj (hkind.symm.trans (hz hmem))
      simp [hspace]
    · simp [hid]
  rw [hskip h.sound fun hz => (h.new hz).1, hskip ht fun hz => (h.old hz).1,
    h.keeps.tokens_filter_ne]

end Respaced

/-! ## White space before a node -/

/-- The white space `x` was put right before `n`: the token `z` that stood
there got this text, or was put in. -/
structure SpacedBefore (n z : NodeId) (x : String) (t u : Tree) :
    Prop extends Respaced z x t u where
  kept : t.document.ids ⊆ u.document.ids
  /-- A token that was there stays where it is, and so does every other one. -/
  stays : z ∈ t.document.ids →
    u.document.ids = t.document.ids ∧ u.document.tokens.map Token.id =
      t.document.tokens.map Token.id
  /-- A token that is put in is a sibling. -/
  sibling : z ∉ t.document.ids → u.parent? z = u.parent? n
  precedes : u.document.Precedes z n
  nearest : (u.tokensBefore n).head? = some ⟨z, .whitespace, x⟩

/-- If two documents list the same nodes, and the same ones are tokens, the
same tokens stand before a node. -/
theorem map_id_tokensBefore (ht : t.Sound) (hu : u.Sound)
    (hids : u.document.ids = t.document.ids)
    (htokens : u.document.tokens.map Token.id = t.document.tokens.map Token.id)
    (hn : n ∈ t.document.ids) :
    (u.tokensBefore n).map Token.id = (t.tokensBefore n).map Token.id := by
  have hmap : ∀ {v : Tree}, v.Sound → n ∈ v.document.ids →
      (v.tokensBefore n).map Token.id =
      ((v.document.tokens.map Token.id).filter fun m =>
          decide (v.document.Precedes m n)).reverse := by
    intro v hv hn
    rw [hv.tokensBefore_eq_filter hn, List.map_reverse, List.filter_map]
    rfl
  rw [hmap hu (hids ▸ hn), hmap ht hn, htokens]
  refine congrArg List.reverse (List.filter_congr fun m _ =>
    decide_eq_decide.mpr ?_)
  rw [Forest.Precedes, Forest.Precedes, hids]

/-- The edited token as it is found in the document. -/
theorem Respaced.eq_of_mem (h : Respaced z x t u) {tok : Token}
    (htok : tok ∈ u.document.tokens) (hid : tok.id = z) :
    tok = ⟨z, .whitespace, x⟩ := by
  obtain ⟨hmem, hkind, htext⟩ := h.sound.of_mem_tokens htok
  rw [hid] at hmem hkind htext
  obtain ⟨hkind', htext'⟩ := h.new hmem
  have hk : tok.kind = .whitespace := Option.some.inj (hkind.symm.trans hkind')
  have hx : tok.text = x := Option.some.inj (htext.symm.trans htext')
  rw [← hid, ← hk, ← hx]

/-- If the token before a node is the one that gets another text, it still
is afterwards. -/
theorem Respaced.head_tokensBefore (h : Respaced z x t u) (ht : t.Sound)
    (hids : u.document.ids = t.document.ids)
    (htokens : u.document.tokens.map Token.id = t.document.tokens.map Token.id)
    (hm : m ∈ t.document.ids) (hz : t.prevLeaf? m = some z) :
    (u.tokensBefore m).head? = some ⟨z, .whitespace, x⟩ := by
  have hmap := congrArg List.head?
    (map_id_tokensBefore ht h.sound hids htokens hm)
  rw [List.head?_map, List.head?_map] at hmap
  obtain ⟨tok, hhead, hid⟩ := Option.map_eq_some_iff.mp (hmap.trans hz)
  have htok : tok ∈ u.document.tokens :=
    h.sound.mem_tokens_of_beside (hids ▸ hm) (Or.inl (List.mem_of_head? hhead))
  rw [hhead, h.eq_of_mem htok hid]

/-- For any other node the nearest token before it is the same, unless it is
the white space. -/
theorem SpacedBefore.nearest_or_same (h : SpacedBefore n z x t u) (ht : t.Sound)
    (hm : m ∈ t.document.ids) (hne : m ≠ z) :
    (u.tokensBefore m).head? = some ⟨z, .whitespace, x⟩ ∨
      (u.tokensBefore m).head? = (t.tokensBefore m).head? := by
  have hfilter := h.tokensBefore_filter ht hm hne
  by_cases hprev : t.prevLeaf? m = some z
  · obtain ⟨hids, htokens⟩ := h.stays (ht.prevLeaf_mem_document hm hprev)
    exact Or.inl (h.head_tokensBefore ht hids htokens hm hprev)
  · have hsame : ((t.tokensBefore m).filter (·.id != z)).head? =
        (t.tokensBefore m).head? := by
      cases hbefore : t.tokensBefore m with
      | nil => rfl
      | cons tok rest =>
        have hid : tok.id ≠ z := fun hid =>
          hprev (by simp [prevLeaf?, hbefore, hid])
        simp [hid]
    rw [← hsame, ← hfilter]
    cases hbefore : u.tokensBefore m with
    | nil => exact Or.inr rfl
    | cons tok rest =>
      by_cases hid : tok.id = z
      · have htok : tok ∈ u.document.tokens :=
          h.sound.mem_tokens_of_beside (h.kept hm) (Or.inl (by simp [hbefore]))
        exact Or.inl (by rw [List.head?_cons, h.eq_of_mem htok hid])
      · exact Or.inr (by simp [hid])

/-- What was there stays in its order. -/
theorem SpacedBefore.precedes_of_precedes (h : SpacedBefore n z x t u)
    {a b : NodeId} (hab : t.document.Precedes a b) :
    u.document.Precedes a b := by
  by_cases hz : z ∈ t.document.ids
  · rw [Forest.Precedes, (h.stays hz).1]
    exact hab
  · have hne : ∀ m ∈ t.document.ids, m ∉ [z] := by
      intro m hm hmz
      exact hz (List.mem_singleton.mp hmz ▸ hm)
    exact h.keeps.precedes (hne a hab.mem_left) (hne b hab.mem_right) hab

/-- White space that was there stays a child where it is one. -/
theorem SpacedBefore.children_eq (h : SpacedBefore n z x t u) (ht : t.Sound)
    (hz : z ∈ t.document.ids) (hp : p ∈ t.document.ids) :
    u.children p = t.children p := by
  obtain ⟨hids, -⟩ := h.stays hz
  rw [h.sound.children_eq_filter (h.kept hp), ht.children_eq_filter hp, hids]
  refine List.filter_congr fun m hm => ?_
  rw [h.parent?_eq ht hm (h.kept hm)]

/-- What happens in a transaction has happened when it is closed. -/
theorem SpacedBefore.closed (h : SpacedBefore n z x t.begin u)
    (c : Checkpoint) :
    SpacedBefore n z x t (u.commit c) where
  sound := h.sound.congr rfl rfl
  keeps := h.keeps
  grows := h.grows
  old := h.old
  new := h.new
  fresh := h.fresh
  parent := h.parent
  kept := h.kept
  stays := h.stays
  sibling := h.sibling
  precedes := h.precedes
  nearest := h.nearest

/-- White space that stands before a node gets the text. -/
theorem spacedBefore_replaceText (h : t.Sound) (hn : n ∈ t.document.ids)
    (hz : t.prevLeaf? n = some z) (hk : t.kind? z = some .whitespace)
    (x : String) : SpacedBefore n z x t (t.replaceText z x).tree := by
  obtain ⟨tok, hhead, rfl⟩ := Option.map_eq_some_iff.mp hz
  obtain ⟨hmem, hleaf⟩ := neighbour_leaf h hn (Or.inl (List.mem_of_head? hhead))
  have hrespaced := respaced_replaceText h hmem hk hleaf x
  have hids := ids_replaceText h tok.id x
  have htokens : (t.replaceText tok.id x).tree.document.tokens.map Token.id =
      t.document.tokens.map Token.id := by
    rw [document_replaceText h hleaf, Forest.map_id_tokens_setText]
  obtain ⟨pre, post, ha⟩ := h.around hn
  have hpre : tok ∈ pre := by
    rw [(h.tokens_of_around ha).1] at hhead
    exact List.mem_reverse.mp (List.mem_of_head? hhead)
  refine ⟨hrespaced, hids ▸ List.Subset.refl _, fun _ => ⟨hids, htokens⟩,
    fun hout => absurd hmem hout, ?_,
    hrespaced.head_tokensBefore h hids htokens hn hz⟩
  rw [Forest.Precedes, hids]
  exact ha.precedes_of_mem_pre hpre

/-- New white space is put before a node. -/
theorem spacedBefore_insertBefore (h : t.Sound) (hn : n ∈ t.document.ids)
    (hok : ((t.newToken .whitespace x).insertBefore n t.count).failure = none) :
    SpacedBefore n t.count x t
      ((t.newToken .whitespace x).insertBefore n t.count).tree := by
  have hv : (t.newToken .whitespace x).Sound := sound_newToken h x
  have hnv : n ∈ (t.newToken .whitespace x).document.ids := by
    rwa [document_newToken h]
  have hprecedes := precedes_of_insertBefore hv hnv hok
  obtain ⟨pre, post, ha⟩ := hv.around hnv
  have ha' := hv.around_insertBefore ha hok
  obtain ⟨p, i, hp, -, heq⟩ := insertBefore_of_success hok
  rw [heq] at hok hprecedes ha' ⊢
  have hrespaced := respaced_insertChild h hok
  obtain ⟨g, hdoc⟩ := insertChild_of_success hv hok
  rw [document_newToken h, subtree_newToken h] at hdoc
  have hkept : t.document.ids ⊆
      ((t.newToken .whitespace x).insertChild p i
        t.count).tree.document.ids := by
    rw [hdoc]
    exact Forest.ids_subset_insertUnder _ _ _ _
  have hout : t.count ∉ t.document.ids :=
    fun hm => Nat.lt_irrefl _ (h.lt_count hm)
  refine ⟨hrespaced, hkept, fun hm => absurd hm hout, fun _ => ?_,
    hprecedes, ?_⟩
  · obtain ⟨g, htree⟩ := insertChild_eq_graft hv hok
    have hkids : t.count ∈
        ((t.newToken .whitespace x).insertChild p i t.count).tree.children
        p := by
      have hgraft := g.children_parent hv
      rw [htree, children, subtree, record_forest]
      rw [children, subtree] at hgraft
      simp [hgraft]
    have hsame : t.SameFile (t.newToken .whitespace x) :=
      ⟨h, hv, document_newToken h x⟩
    rw [hrespaced.sound.parent?_eq_some_iff.mpr hkids,
      hrespaced.parent?_eq h hn (hkept hn), ← hsame.parent? hn, hp]
  · rw [(hrespaced.sound.tokens_of_around ha').1, subtree_newToken h]
    simp [Forest.tokens]

/-- White space before a node. -/
theorem spacedBefore_spaceBefore (h : t.Sound) (hn : n ∈ t.document.ids)
    (hx : x.isEmpty = false) (hok : (t.spaceBefore n x).failure = none) :
    ∃ z, SpacedBefore n z x t (t.spaceBefore n x).tree := by
  unfold spaceBefore fillGap at hok ⊢
  cases hleaf : (t.prevLeaf? n).filter fun leaf =>
      t.hasKind leaf .whitespace with
  | none =>
    simp only [hleaf, hx, Bool.false_eq_true, if_false] at hok ⊢
    exact ⟨t.count, spacedBefore_insertBefore h hn hok⟩
  | some z =>
    obtain ⟨hz, hk⟩ := Option.filter_eq_some_iff.mp hleaf
    simp only [hx, Bool.false_eq_true, if_false]
    exact ⟨z, spacedBefore_replaceText h hn hz (by simpa [hasKind] using hk) x⟩

end TreeLint.Tree
