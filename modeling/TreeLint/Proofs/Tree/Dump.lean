import TreeLint.Proofs.Text.Quoted
import TreeLint.Proofs.Tree.Document
import TreeLint.Proofs.Tree.Reachable
import TreeLint.Tree.Dump

/-!
# Trees told apart by their dumps

A dump gives the depth of a node by spaces alone and the end of its children
not at all. It can be read back all the same: a name ends at the first space
or line break, a quoted text at its closing quote, and the children of a
node at the first line that is not indented further than the node
(`Outdented`). So two forests with the same dump differ in nothing but the
identities of their nodes (`Forest.dump_append_inj`).

Forests that differ in identities only are each other's renaming
(`Forest.rename`), and a renaming answers every question about a node as the
forest itself does. For trees this is an `Isomorphism`, said in terms of the
questions one can ask; `dump_eq_iff_isomorphic` is the main statement.

Specification, §15.
-/

namespace TreeLint

/-! ## Names of kinds -/

namespace Kind

theorem mem_all (k : Kind) : k ∈ all := by
  cases k <;> decide

theorem ofName?_name (k : Kind) : ofName? k.name = some k := by
  have hall : ∀ k ∈ all, ofName? k.name = some k := by decide +kernel
  exact hall k k.mem_all

/-- What a name is made of; a space or a line break ends it. -/
def inName (c : Char) : Bool := c != ' ' && c != '\n'

/-- Names are made of letters and the joining line only, so a name ends
where a blank or a line break comes. -/
theorem inName_of_mem_name (k : Kind) :
    ∀ c ∈ k.name.toList, inName c = true := by
  have hall : k.name.toList.all inName = true := by cases k <;> decide
  exact List.all_eq_true.mp hall

theorem exists_name_eq_cons (k : Kind) : ∃ c cs, k.name.toList = c :: cs := by
  have hne : k.name ≠ "" := by cases k <;> decide
  exact List.exists_cons_of_ne_nil (by simpa using hne)

/-- A name is told by the characters in front of the first one that is in no
name. -/
theorem name_append_inj {k k' : Kind} {a b : Char} {x y : List Char}
    (ha : inName a = false) (hb : inName b = false)
    (h : k.name.toList ++ a :: x = k'.name.toList ++ b :: y) :
    k = k' ∧ a = b ∧ x = y := by
  have htake := congrArg (List.takeWhile inName) h
  rw [List.takeWhile_append_of_pos k.inName_of_mem_name,
    List.takeWhile_append_of_pos k'.inName_of_mem_name,
    List.takeWhile_cons_of_neg (by simp [ha]),
      List.takeWhile_cons_of_neg (by simp [hb]), List.append_nil,
    List.append_nil] at htake
  have hkind : some k = some k' := by
    rw [← ofName?_name k, ← ofName?_name k', String.toList_inj.mp htake]
  rw [htake, List.append_cancel_left_eq, List.cons.injEq] at h
  exact ⟨Option.some.inj hkind, h⟩

end Kind

namespace Forest

variable {f g c r : Forest} {d : Nat} {x y : List Char} {e : NodeId → NodeId}

/-! ## Renaming the nodes of a forest -/

/-- The same forest with other identities. -/
def rename (e : NodeId → NodeId) : Forest → Forest
  | .nil => .nil
  | .token i k s r => .token (e i) k s (r.rename e)
  | .node i k c r => .node (e i) k (c.rename e) (r.rename e)

@[simp] theorem ids_rename (e : NodeId → NodeId) (f : Forest) :
    (f.rename e).ids = f.ids.map e := by
  induction f with
  | nil => rfl
  | token i k s r ih => simp [rename, ids, ih]
  | node i k c r ihc ihr => simp [rename, ids, ihc, ihr]

@[simp] theorem roots_rename (e : NodeId → NodeId) (f : Forest) :
    (f.rename e).roots = f.roots.map e := by
  induction f with
  | nil => rfl
  | token i k s r ih => simp [rename, roots, ih]
  | node i k c r _ ih => simp [rename, roots, ih]

@[simp] theorem rootKind?_rename (e : NodeId → NodeId) (f : Forest) :
    (f.rename e).rootKind? = f.rootKind? := by
  cases f <;> rfl

@[simp] theorem rootText?_rename (e : NodeId → NodeId) (f : Forest) :
    (f.rename e).rootText? = f.rootText? := by
  cases f <;> rfl

@[simp] theorem rootChildren_rename (e : NodeId → NodeId) (f : Forest) :
    (f.rename e).rootChildren = f.rootChildren.rename e := by
  cases f <;> rfl

/-- **A dump does not show identities.** -/
@[simp] theorem dump_rename (e : NodeId → NodeId) (f : Forest) (d : Nat) :
    (f.rename e).dump d = f.dump d := by
  induction f generalizing d with
  | nil => rfl
  | token i k s r ih => simp [rename, dump, ih]
  | node i k c r ihc ihr => simp [rename, dump, ihc, ihr]

/-- Looking a node up under its new name finds what it was, renamed. -/
theorem subtree?_rename {n : NodeId} (he : ∀ m ∈ f.ids, e m = e n → m = n) :
    (f.rename e).subtree? (e n) = (f.subtree? n).map (rename e) := by
  induction f with
  | nil => rfl
  | token i k s r ih =>
    simp only [ids, List.forall_mem_cons] at he
    by_cases hi : i = n
    · simp [rename, subtree?, hi]
    · have hne : e i ≠ e n := fun h => hi (he.1 h)
      simp [rename, subtree?, hi, hne, ih he.2]
  | node i k c r ihc ihr =>
    simp only [ids, List.forall_mem_cons, List.forall_mem_append] at he
    by_cases hi : i = n
    · simp [rename, subtree?, hi]
    · have hne : e i ≠ e n := fun h => hi (he.1 h)
      simp only [rename, subtree?, if_neg hi, if_neg hne,
        ihc he.2.1, ihr he.2.2]
      cases c.subtree? n <;> rfl

/-! ## Forests that differ in identities only -/

/-- A forest with its identities forgotten. -/
def shape (f : Forest) : Forest := f.rename fun _ => Tree.root

theorem length_ids_of_shape_eq (h : f.shape = g.shape) :
    f.ids.length = g.ids.length := by
  have hids := congrArg (fun f => f.ids.length) h
  simpa [shape] using hids

/-- Forests of one shape differ in their identities only. -/
theorem eq_rename_of_shape_eq (h : f.shape = g.shape)
    (hids : f.ids.map e = g.ids) : g = f.rename e := by
  induction f generalizing g with
  | nil => cases g <;> simp_all [shape, rename]
  | token i k s r ih =>
    cases g with
    | token j k' s' r' =>
      simp only [shape, rename, token.injEq, true_and] at h
      simp only [ids, List.map_cons, List.cons.injEq] at hids
      rw [rename, ← ih h.2.2 hids.2, hids.1, h.1, h.2.1]
    | nil | node => simp [shape, rename] at h
  | node i k c r ihc ihr =>
    cases g with
    | node j k' c' r' =>
      simp only [shape, rename, node.injEq, true_and] at h
      simp only [ids, List.map_cons, List.map_append, List.cons.injEq] at hids
      have hlength : (c.ids.map e).length = c'.ids.length := by
        rw [List.length_map, length_ids_of_shape_eq h.2.1]
      obtain ⟨hc, hr⟩ := List.append_inj hids.2 hlength
      rw [rename, ← ihc h.2.1 hc, ← ihr h.2.2 hr, hids.1, h.1]
    | nil | token => simp [shape, rename] at h

/-- A forest without repeated identities can be renamed to any forest of its
shape. -/
theorem exists_rename_of_shape_eq (hf : f.ids.Nodup) (h : f.shape = g.shape) :
    ∃ e, g = f.rename e := by
  have hlength := length_ids_of_shape_eq h
  refine ⟨fun n => g.ids.getD (f.ids.idxOf n) Tree.root,
    eq_rename_of_shape_eq h ?_⟩
  apply List.ext_getElem (by simp [hlength])
  intro i hi hi'
  simp [hf.idxOf_getElem, hi']

/-! ## Reading a dump -/

/-- What follows a forest at some depth: nothing, or a line that is less
indented. -/
def Outdented (d : Nat) (x : List Char) : Prop :=
  x = [] ∨ (x.takeWhile (· == ' ')).length < 2 * d

/-- The dump of a token: blanks for its depth, its kind, its text in quotes,
and a line break. -/
theorem toList_dump_token (i : NodeId) (k : Kind) (s : String) (r : Forest) :
    ((Forest.token i k s r).dump d).toList ++ x = List.replicate (2 * d) ' ' ++
      (k.name.toList ++ ' ' ::
        ((Text.quoted s).toList ++ '\n' :: ((r.dump d).toList ++ x))) := by
  simp [dump]

theorem toList_dump_node (i : NodeId) (k : Kind) (c r : Forest) :
    ((Forest.node i k c r).dump d).toList ++ x = List.replicate (2 * d) ' ' ++
      (k.name.toList ++ '\n' ::
        ((c.dump (d + 1)).toList ++ ((r.dump d).toList ++ x))) := by
  simp [dump]

/-- A line is indented as far as its depth says, since no name begins with a
space. -/
theorem length_takeWhile_line (n : Nat) (k : Kind) (x : List Char) :
    ((List.replicate n ' ' ++ (k.name.toList ++ x)).takeWhile
      (· == ' ')).length = n := by
  obtain ⟨c, cs, hname⟩ := k.exists_name_eq_cons
  have hc : Kind.inName c = true := k.inName_of_mem_name c (by simp [hname])
  have hspace : (c == ' ') = false := by
    simp only [Kind.inName, Bool.and_eq_true, bne_iff_ne] at hc
    simpa using hc.1
  rw [List.takeWhile_append_of_pos (by simp), hname]
  simp [hspace]

/-- What is outdented does not go on with a line of the same depth. -/
theorem Outdented.ne_line (h : Outdented d x) (k : Kind) (y : List Char) :
    (Forest.nil.dump d).toList ++ x ≠ List.replicate (2 * d) ' ' ++
      (k.name.toList ++ y) := by
  obtain ⟨c, cs, hname⟩ := k.exists_name_eq_cons
  intro heq
  rw [dump, String.toList_empty, List.nil_append] at heq
  rcases h with rfl | hshort
  · simp [hname] at heq
  · rw [heq, length_takeWhile_line] at hshort
    exact lt_irrefl _ hshort

/-- What is outdented, with siblings in front of it or not, is outdented for
the children. -/
theorem Outdented.dump_append (h : Outdented d x) (r : Forest) :
    Outdented (d + 1) ((r.dump d).toList ++ x) := by
  cases r with
  | nil =>
    rcases h with rfl | h
    · exact Or.inl rfl
    · exact Or.inr
        (by simp only [dump, String.toList_empty, List.nil_append]; omega)
  | token i k s r =>
    rw [toList_dump_token]
    exact Or.inr (by rw [length_takeWhile_line]; omega)
  | node i k c r =>
    rw [toList_dump_node]
    exact Or.inr (by rw [length_takeWhile_line]; omega)

/-- Forests with the same dump have the same shape, whatever stands behind
them further out. -/
theorem dump_append_inj (hx : Outdented d x) (hy : Outdented d y)
    (h : (f.dump d).toList ++ x = (g.dump d).toList ++ y) :
    f.shape = g.shape ∧ x = y := by
  -- Each case reads the first line; what is left are the children, one
  -- level in, and the later siblings.
  induction f generalizing g d x y with
  | nil =>
    cases g with
    | nil => exact ⟨rfl, by simpa [dump] using h⟩
    | token j k' s' r' =>
      rw [toList_dump_token] at h
      exact absurd h (hx.ne_line k' _)
    | node j k' c' r' =>
      rw [toList_dump_node] at h
      exact absurd h (hx.ne_line k' _)
  | token i k s r ih =>
    rw [toList_dump_token] at h
    cases g with
    | nil => exact absurd h.symm (hy.ne_line k _)
    | token j k' s' r' =>
      rw [toList_dump_token] at h
      obtain ⟨rfl, -, htext⟩ :=
        Kind.name_append_inj (by decide) (by decide) (List.append_cancel_left h)
      obtain ⟨rfl, hrest⟩ := Text.quoted_append_inj htext
      obtain ⟨hr, hxy⟩ := ih hx hy (List.cons.inj hrest).2
      exact ⟨by simpa [shape, rename] using hr, hxy⟩
    | node j k' c' r' =>
      rw [toList_dump_node] at h
      have hends := (Kind.name_append_inj (by decide) (by decide)
        (List.append_cancel_left h)).2.1
      exact absurd hends (by decide)
  | node i k c r ihc ihr =>
    rw [toList_dump_node] at h
    cases g with
    | nil => exact absurd h.symm (hy.ne_line k _)
    | token j k' s' r' =>
      rw [toList_dump_token] at h
      have hends := (Kind.name_append_inj (by decide) (by decide)
        (List.append_cancel_left h)).2.1
      exact absurd hends (by decide)
    | node j k' c' r' =>
      rw [toList_dump_node] at h
      obtain ⟨rfl, -, hbelow⟩ := Kind.name_append_inj (by decide) (by decide)
        (List.append_cancel_left h)
      obtain ⟨hc, hrest⟩ := ihc (hx.dump_append r) (hy.dump_append r') hbelow
      obtain ⟨hr, hxy⟩ := ihr hx hy hrest
      exact ⟨by simpa [shape, rename] using And.intro hc hr, hxy⟩

/-- **A dump can be read back:** it determines the shape. -/
theorem shape_eq_of_dump_eq (h : f.dump 0 = g.dump 0) : f.shape = g.shape :=
  (dump_append_inj (Or.inl rfl) (Or.inl rfl) (by rw [h])).1

/-! ## Parts of a tree -/

/-- A part of the forest of a tree: its nodes are found there as they are in
the part. -/
structure FoundIn (f : Forest) (t : Tree) : Prop where
  nodup : f.ids.Nodup
  subtree : ∀ n ∈ f.ids, f.subtree? n = some (t.subtree n)

namespace FoundIn

variable {t : Tree} {i : NodeId} {k : Kind} {s : String}

theorem subtree_token (h : (Forest.token i k s r).FoundIn t) :
    t.subtree i = .token i k s .nil := by
  have hi := h.subtree i (by simp [ids])
  simpa [subtree?, eq_comm] using hi

theorem subtree_node (h : (Forest.node i k c r).FoundIn t) :
    t.subtree i = .node i k c .nil := by
  have hi := h.subtree i (by simp [ids])
  simpa [subtree?, eq_comm] using hi

theorem after_token (h : (Forest.token i k s r).FoundIn t) : r.FoundIn t := by
  obtain ⟨hi, hr⟩ := nodup_token.mp h.nodup
  refine ⟨hr, fun n hn => ?_⟩
  have hne : i ≠ n := fun heq => hi (heq ▸ hn)
  simpa [subtree?, hne] using h.subtree n (by simp [ids, hn])

theorem after_node (h : (Forest.node i k c r).FoundIn t) : r.FoundIn t := by
  obtain ⟨-, hi, -, hr, hdisjoint⟩ := nodup_node.mp h.nodup
  refine ⟨hr, fun n hn => ?_⟩
  have hne : i ≠ n := fun heq => hi (heq ▸ hn)
  have hnone : c.subtree? n = none := (subtree?_eq_none_iff n c).mpr fun hc =>
    hdisjoint hc hn
  simpa [subtree?, hne, hnone] using h.subtree n (by simp [ids, hn])

theorem below_node (h : (Forest.node i k c r).FoundIn t) : c.FoundIn t := by
  obtain ⟨hi, -, hc, -, -⟩ := nodup_node.mp h.nodup
  refine ⟨hc, fun n hn => ?_⟩
  have hne : i ≠ n := fun heq => hi (heq ▸ hn)
  obtain ⟨s, hs⟩ := exists_subtree hn
  simpa [subtree?, hne, hs] using h.subtree n (by simp [ids, hn])

end FoundIn

end Forest

namespace Tree

variable {t u : Tree} {e : NodeId → NodeId}

/-! ## Isomorphic trees -/

/-- A node of one tree looks like the node of another that `e` takes it to:
it is of the same kind, it is a token with the same text or no token either,
and its children are taken to the children in order. -/
structure Matches (t u : Tree) (e : NodeId → NodeId) (n : NodeId) : Prop where
  kind : u.kind? (e n) = t.kind? n
  text : u.tokenText? (e n) = t.tokenText? n
  children : u.children (e n) = (t.children n).map e

/-- A correspondence between the attached nodes of two trees, one to one,
under which they look the same. -/
structure Isomorphism (t u : Tree) (e : NodeId → NodeId) : Prop where
  root : e root = root
  attached : ∀ n, t.isAttached n = true → u.isAttached (e n) = true
  injective : ∀ m n, t.isAttached m = true → t.isAttached n = true →
    e m = e n → m = n
  surjective : ∀ m, u.isAttached m = true → ∃ n, t.isAttached n = true ∧ e n = m
  looks : ∀ n, t.isAttached n = true → t.Matches u e n

theorem Sound.foundIn_document (h : t.Sound) : t.document.FoundIn t :=
  ⟨h.nodup_document, fun _ hn => h.subtree?_document hn⟩

/-- Renaming the nodes of the document is an isomorphism. -/
theorem isomorphism_of_rename (ht : t.Sound) (hu : u.Sound)
    (h : u.document = t.document.rename e) : t.Isomorphism u e := by
  have hids : u.document.ids = t.document.ids.map e := by
    rw [h, Forest.ids_rename]
  have hinj : ∀ m ∈ t.document.ids, ∀ n ∈ t.document.ids,
      e m = e n → m = n := by
    have hnodup := hu.nodup_document
    rw [hids] at hnodup
    exact fun m hm n hn => List.inj_on_of_nodup_map hnodup hm hn
  have hattached : ∀ n ∈ t.document.ids, e n ∈ u.document.ids := fun n hn => by
    rw [hids]
    exact List.mem_map_of_mem hn
  refine ⟨?_, fun n hn => ?_, fun m n hm hn => ?_, fun m hm => ?_,
    fun n hn => ?_⟩
  · have hroots := hu.roots_document
    rw [h, Forest.roots_rename, ht.roots_document] at hroots
    simpa using hroots
  · exact hu.mem_document_iff.mp (hattached n (ht.mem_document_iff.mpr hn))
  · exact hinj m (ht.mem_document_iff.mpr hm) n (ht.mem_document_iff.mpr hn)
  · have hmem := hu.mem_document_iff.mpr hm
    rw [hids, List.mem_map] at hmem
    obtain ⟨n, hn, rfl⟩ := hmem
    exact ⟨n, ht.mem_document_iff.mp hn, rfl⟩
  · rw [← ht.mem_document_iff] at hn
    have hfound := Forest.subtree?_rename fun m hm => hinj m hm n hn
    rw [← h, ht.subtree?_document hn, hu.subtree?_document (hattached n hn),
      Option.map_some,
      Option.some.injEq] at hfound
    exact ⟨by rw [kind?, hfound, Forest.rootKind?_rename, kind?],
      by rw [tokenText?, hfound, Forest.rootText?_rename, tokenText?],
      by rw [children, hfound, Forest.rootChildren_rename,
        Forest.roots_rename, children]⟩

/-- Parts of two trees whose nodes look the same are renamings of each other. -/
theorem eq_rename_of_matches {f g : Forest} (hf : f.FoundIn t)
    (hg : g.FoundIn u) (hroots : g.roots = f.roots.map e)
    (h : ∀ n ∈ f.ids, t.Matches u e n) : g = f.rename e := by
  -- By induction on the one forest; what is known of its first root says
  -- what the other begins with.
  induction f generalizing g with
  | nil => cases g <;> simp_all [Forest.roots, Forest.rename]
  | token i k s r ih =>
    have hi := h i (by simp [Forest.ids])
    have hrest : ∀ n ∈ r.ids, t.Matches u e n := fun n hn =>
      h n (by simp [Forest.ids, hn])
    cases g with
    | nil => simp [Forest.roots] at hroots
    | token j k' s' r' =>
      obtain ⟨rfl, hlater⟩ := List.cons.inj hroots
      have hkind := hi.kind
      have htext := hi.text
      simp only [kind?, tokenText?, hf.subtree_token, hg.subtree_token,
        Forest.rootKind?, Forest.rootText?,
        Option.some.injEq] at hkind htext
      rw [Forest.rename, ← ih hf.after_token hg.after_token hlater hrest,
        hkind, htext]
    | node j k' c' r' =>
      obtain ⟨rfl, -⟩ := List.cons.inj hroots
      have htext := hi.text
      simp [tokenText?, hf.subtree_token, hg.subtree_node, Forest.rootText?]
        at htext
  | node i k c r ihc ihr =>
    have hi := h i (by simp [Forest.ids])
    have hbelow : ∀ n ∈ c.ids, t.Matches u e n := fun n hn =>
      h n (by simp [Forest.ids, hn])
    have hrest : ∀ n ∈ r.ids, t.Matches u e n := fun n hn =>
      h n (by simp [Forest.ids, hn])
    cases g with
    | nil => simp [Forest.roots] at hroots
    | token j k' s' r' =>
      obtain ⟨rfl, -⟩ := List.cons.inj hroots
      have htext := hi.text
      simp [tokenText?, hf.subtree_node, hg.subtree_token, Forest.rootText?]
        at htext
    | node j k' c' r' =>
      obtain ⟨rfl, hlater⟩ := List.cons.inj hroots
      have hkind := hi.kind
      have hchildren := hi.children
      simp only [kind?, children, hf.subtree_node, hg.subtree_node,
        Forest.rootKind?, Forest.rootChildren,
        Option.some.injEq] at hkind hchildren
      rw [Forest.rename, ← ihc hf.below_node hg.below_node hchildren hbelow,
        ← ihr hf.after_node hg.after_node hlater hrest, hkind]

/-- **Dumps are faithful.** Two trees have the same dump exactly if they are
isomorphic: the same shape with the same order of children, the same kinds,
the same nodes being tokens, and the same texts. Specification, §15. -/
theorem dump_eq_iff_isomorphic {t u : Tree} (ht : t.Reachable)
    (hu : u.Reachable) :
    t.dump = u.dump ↔ ∃ e, t.Isomorphism u e := by
  have hst := ht.consistent.sound
  have hsu := hu.consistent.sound
  constructor
  · intro h
    obtain ⟨e, he⟩ := Forest.exists_rename_of_shape_eq hst.nodup_document
      (Forest.shape_eq_of_dump_eq h)
    exact ⟨e, isomorphism_of_rename hst hsu he⟩
  · rintro ⟨e, he⟩
    have hroots : u.document.roots = t.document.roots.map e := by
      rw [hst.roots_document, hsu.roots_document, List.map_singleton, he.root]
    have hdocument := eq_rename_of_matches hst.foundIn_document
      hsu.foundIn_document hroots
      fun n hn => he.looks n (hst.mem_document_iff.mp hn)
    exact (Forest.dump_rename e t.document 0).symm.trans
      (congrArg (Forest.dump 0) hdocument.symm)

/-- A text that looks like lines of a dump, an empty node and an empty
token, in a tree that was built in this order and in one that was put into
it later: the dumps agree, and the nodes correspond although their
identities differ. With an empty token in place of the empty node the trees
are told apart. -/
theorem dump_eq_iff_isomorphic_reordered :
    let text := "\"\\\n  BLOCK \"\"\n"
    let t := build .file
      [.start .classDecl, .token .stringLiteral text, .start .block, .finish,
        .token .identifier ""]
    let u := Op.run
      (build .file [.start .classDecl, .token .identifier "", .start .block,
        .finish, .token .stringLiteral text])
      [.moveBefore 4 2, .moveAfter 2 3]
    let v := build .file
      [.start .classDecl, .token .stringLiteral text, .token .block "",
        .token .identifier ""]
    t.dump = u.dump ∧ (∃ e, t.Isomorphism u e ∧ e 2 = 4 ∧ e 3 = 3 ∧ e 4 = 2) ∧
        ¬ ∃ e, t.Isomorphism v e := by
  intro text t u v
  have ht : t.Reachable := ⟨.file, _, [], rfl⟩
  have hdump : t.dump = u.dump := by decide +kernel
  obtain ⟨e, he⟩ := (dump_eq_iff_isomorphic ht ⟨.file, _, _, rfl⟩).mp hdump
  have htop : u.children (e root) = (t.children root).map e :=
    (he.looks root (by decide)).children
  rw [he.root, show u.children root = [1] by decide +kernel,
    show t.children root = [1] by decide +kernel] at htop
  have hclass : u.children (e 1) = (t.children 1).map e :=
    (he.looks 1 (by decide)).children
  rw [← (List.cons.inj htop).1, show u.children 1 = [4, 3, 2] by decide +kernel,
    show t.children 1 = [2, 3, 4] by decide +kernel] at hclass
  simp only [List.map_cons, List.map_nil, List.cons.injEq, and_true] at hclass
  refine ⟨hdump, ⟨e, he, hclass.1.symm, hclass.2.1.symm, hclass.2.2.symm⟩,
    fun hv => ?_⟩
  exact absurd ((dump_eq_iff_isomorphic ht ⟨.file, _, [], rfl⟩).mpr hv)
    (by decide +kernel)

end Tree

end TreeLint
