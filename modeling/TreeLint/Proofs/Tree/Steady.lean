import TreeLint.Proofs.Forest.Frame
import TreeLint.Proofs.Tree.Kinds
import TreeLint.Proofs.Tree.Success

/-!
# Documents that stay as they are but for white space

Rules that correct white space leave the rest of a document alone: every
other node stays attached, under its parent and in its place among the
others (`Steady`). The notion leaves room for nodes that are moved, which
are called free.

Specification, §13.
-/

namespace TreeLint.Tree

variable {t u v : Tree} {m n p z : NodeId} {S : List NodeId}
  {free : NodeId → Prop} {atoms : Kind → Bool}

namespace Sound

theorem ancestors?_document (h : t.Sound) (hm : m ∈ t.document.ids) :
    t.document.ancestors? m = some (t.ancestors m) := by
  obtain ⟨as, has⟩ := Forest.exists_ancestors hm
  obtain ⟨rest, hf⟩ := h.forest_eq
  rw [ancestors, hf, Forest.ancestors?_append, has]
  rfl

/-- The labels of the document are what the tree answers about attached
nodes. -/
theorem mem_labels_document_iff (h : t.Sound) {k : Kind} {y : Option String} :
    (m, k, y) ∈ t.document.labels ↔ m ∈ t.document.ids ∧ t.kind? m = some k ∧
      t.tokenText? m = y := by
  rw [Forest.mem_labels_iff h.nodup_document]
  constructor
  · rintro ⟨s, hs, hk, hy⟩
    have hm := Forest.mem_of_subtree? hs
    rw [h.subtree?_document hm] at hs
    cases hs
    exact ⟨hm, hk, hy⟩
  · rintro ⟨hm, hk, hy⟩
    exact ⟨_, h.subtree?_document hm, hk, hy⟩

theorem lt_count (h : t.Sound) (hm : m ∈ t.document.ids) : m < t.count :=
  (h.mem_ids m).mp (Forest.ids_subtree?_subset h.subtree?_root hm)

theorem root_mem_document (h : t.Sound) : root ∈ t.document.ids := by
  rw [h.mem_document_iff]
  rfl

/-- Every node of the document has a kind. -/
theorem exists_kind (h : t.Sound) (hm : m ∈ t.document.ids) :
    ∃ k, t.kind? m = some k := by
  rw [← Forest.map_fst_labels] at hm
  obtain ⟨⟨m', k, y⟩, hl, rfl⟩ := List.mem_map.mp hm
  exact ⟨k, (h.mem_labels_document_iff.mp hl).2.1⟩

end Sound

/-- A token stands alone in the document. -/
theorem document_subtree_of_token (h : t.Sound) (hm : m ∈ t.document.ids)
    (hleaf : t.isLeaf m = true) :
    ∃ k y, t.kind? m = some k ∧ t.tokenText? m = some y ∧
      t.document.subtree? m = some (.token m k y .nil) := by
  obtain ⟨y, hy⟩ := Option.isSome_iff_exists.mp hleaf
  obtain ⟨k, hk⟩ := subtree?_of_tokenText? hy
  refine ⟨k, y, ?_, hy, ?_⟩
  · rw [kind?, subtree_of_subtree? hk]
    rfl
  · rw [h.subtree?_document hm, subtree_of_subtree? hk]

/-- If the root is a token there is no other node. -/
theorem Sound.eq_root_of_leaf (h : t.Sound) (hleaf : t.isLeaf root = true)
    (hm : m ∈ t.document.ids) : m = root := by
  have hroot := h.root_mem_document
  obtain ⟨k, y, -, -, hsub⟩ := document_subtree_of_token h hroot hleaf
  have hdoc : t.document = .token root k y .nil :=
    Option.some.inj ((h.subtree?_document hroot).symm.trans hsub)
  rw [hdoc] at hm
  exact List.mem_singleton.mp hm

/-- What an edit that keeps everything but `S` keeps of another node. -/
theorem label_of_keepsBut (ht : t.Sound) (hu : u.Sound)
    (hk : Forest.KeepsBut S t.document u.document) (hm : m ∈ t.document.ids)
    (hout : m ∉ S) :
    u.kind? m = t.kind? m ∧ u.tokenText? m = t.tokenText? m ∧
      u.parent? m = t.parent? m := by
  obtain ⟨k, hkind⟩ := ht.exists_kind hm
  have hlabel := ht.mem_labels_document_iff.mpr ⟨hm, hkind, rfl⟩
  rw [← hk.mem_labels_iff hout] at hlabel
  obtain ⟨hm', hkind', htext⟩ := hu.mem_labels_document_iff.mp hlabel
  have habove := hk.above m hout
  rw [ht.ancestors?_document hm, hu.ancestors?_document hm'] at habove
  exact ⟨hkind'.trans hkind.symm, htext,
    congrArg List.head? (Option.some.inj habove)⟩

/-- All code stays where it is, but for nodes that are free, and only white
space is added. -/
structure Steady (free : NodeId → Prop) (t u : Tree) : Prop where
  grows : t.count ≤ u.count
  kept : ∀ m ∈ t.document.ids, t.kindIs m Kind.isTrivia = false →
    m ∈ u.document.ids
  fresh : ∀ m ∈ u.document.ids, m ∉ t.document.ids →
    t.count ≤ m ∧ u.kind? m = some .whitespace ∧ u.isLeaf m = true
  label : ∀ m ∈ t.document.ids, m ∈ u.document.ids → u.kind? m = t.kind? m ∧
    u.isLeaf m = t.isLeaf m
  parent : ∀ m ∈ t.document.ids, m ∈ u.document.ids → ¬free m →
    u.parent? m = t.parent? m
  order : ∀ x y, t.document.Precedes x y → t.kindIs x Kind.isTrivia = false →
    t.kindIs y Kind.isTrivia = false →
    ¬free x → ¬free y → u.document.Precedes x y

namespace Steady

theorem kindIs (h : t.Steady free u) (hm : m ∈ t.document.ids)
    (hm' : m ∈ u.document.ids) (test : Kind → Bool) :
    u.kindIs m test = t.kindIs m test := by
  rw [Tree.kindIs, Tree.kindIs, (h.label m hm hm').1]

/-- Nothing but the number of nodes has changed. -/
theorem of_document_eq (ht : t.Sound) (hu : u.Sound)
    (hdoc : u.document = t.document) (hc : t.count ≤ u.count) :
    t.Steady free u := by
  have s : t.SameFile u := ⟨ht, hu, hdoc⟩
  refine ⟨hc, fun m hm _ => s.mem hm, fun m hm hout => absurd (hdoc ▸ hm) hout,
    fun m hm _ => ⟨s.kind? hm, ?_⟩,
    fun m hm _ _ => s.parent? hm, fun x y hxy _ _ _ _ => hdoc ▸ hxy⟩
  rw [isLeaf, isLeaf, s.tokenText? hm]

theorem refl (ht : t.Sound) : t.Steady free t :=
  .of_document_eq ht ht rfl (Nat.le_refl _)

theorem mono {free' : NodeId → Prop} (h : t.Steady free u)
    (hsub : ∀ m, free m → free' m) : t.Steady free' u where
  grows := h.grows
  kept := h.kept
  fresh := h.fresh
  label := h.label
  parent m hm hm' hfree := h.parent m hm hm' fun hf => hfree (hsub m hf)
  order x y hxy hx hy hfx hfy :=
    h.order x y hxy hx hy (fun hf => hfx (hsub x hf)) fun hf => hfy (hsub y hf)

/-- A node that is gone does not come back. -/
theorem mem_between (h : t.Steady free u) (h' : u.Steady free v) (ht : t.Sound)
    (hm : m ∈ t.document.ids) (hm' : m ∈ v.document.ids) :
    m ∈ u.document.ids := by
  by_contra hout
  have hlater : t.count ≤ m := Nat.le_trans h.grows (h'.fresh m hm' hout).1
  exact Nat.not_lt.mpr hlater (ht.lt_count hm)

/-- Keeping code in place goes on along a chain. -/
theorem trans (h : t.Steady free u) (h' : u.Steady free v) (ht : t.Sound) :
    t.Steady free v where
  grows := Nat.le_trans h.grows h'.grows
  kept m hm hcode := by
    have hmu := h.kept m hm hcode
    exact h'.kept m hmu (by rw [h.kindIs hm hmu, hcode])
  fresh m hm hout := by
    by_cases hmu : m ∈ u.document.ids
    · obtain ⟨hc, hk, hl⟩ := h.fresh m hmu hout
      obtain ⟨hk', hl'⟩ := h'.label m hmu hm
      exact ⟨hc, hk'.trans hk, hl'.trans hl⟩
    · obtain ⟨hc, hk, hl⟩ := h'.fresh m hm hmu
      exact ⟨Nat.le_trans h.grows hc, hk, hl⟩
  label m hm hm' := by
    have hmu := h.mem_between h' ht hm hm'
    obtain ⟨hk, hl⟩ := h.label m hm hmu
    obtain ⟨hk', hl'⟩ := h'.label m hmu hm'
    exact ⟨hk'.trans hk, hl'.trans hl⟩
  parent m hm hm' hfree := by
    have hmu := h.mem_between h' ht hm hm'
    exact (h'.parent m hmu hm' hfree).trans (h.parent m hm hmu hfree)
  order x y hxy hx hy hfx hfy := by
    have hxu := h.kept x hxy.mem_left hx
    have hyu := h.kept y hxy.mem_right hy
    exact h'.order x y (h.order x y hxy hx hy hfx hfy)
      (by rw [h.kindIs hxy.mem_left hxu, hx])
      (by rw [h.kindIs hxy.mem_right hyu, hy]) hfx hfy

/-- The order of what stays is the same in both directions. -/
theorem order_iff (h : t.Steady free u) (ht : t.Sound) (hu : u.Sound)
    {x y : NodeId} (hx : x ∈ t.document.ids) (hy : y ∈ t.document.ids)
    (hcx : t.kindIs x Kind.isTrivia = false)
    (hcy : t.kindIs y Kind.isTrivia = false) (hfx : ¬free x) (hfy : ¬free y) :
    u.document.Precedes x y ↔ t.document.Precedes x y := by
  refine ⟨fun hxy => ?_, fun hxy => h.order x y hxy hcx hcy hfx hfy⟩
  rcases Forest.precedes_total ht.nodup_document hx hy
    (hxy.ne hu.nodup_document) with hold | hold
  · exact hold
  · exact absurd hxy ((h.order y x hold hcy hcx hfy hfx).asymm
      hu.nodup_document)

/-- An edit that keeps everything but `S`, if `S` consists of white space
and of free nodes. -/
theorem of_keepsBut (ht : t.Sound) (hu : u.Sound)
    (hk : Forest.KeepsBut S t.document u.document) (hc : t.count ≤ u.count)
    (hold : ∀ m ∈ S, m ∈ t.document.ids → t.kindIs m Kind.isTrivia = true ∨
      free m ∧ m ∈ u.document.ids)
    (hnew : ∀ m ∈ S, m ∈ u.document.ids → m ∉ t.document.ids → t.count ≤ m ∧
      u.kind? m = some .whitespace ∧ u.isLeaf m = true)
    (hboth : ∀ m ∈ S, m ∈ t.document.ids → m ∈ u.document.ids →
      u.kind? m = t.kind? m ∧ u.isLeaf m = t.isLeaf m ∧
      (¬free m → u.parent? m = t.parent? m)) : t.Steady free u where
  grows := hc
  kept m hm hcode := by
    by_cases hmS : m ∈ S
    · rcases hold m hmS hm with htrivia | ⟨-, hmem⟩
      · simp [htrivia] at hcode
      · exact hmem
    · exact (hk.mem_iff hmS).mpr hm
  fresh m hm hout := by
    by_cases hmS : m ∈ S
    · exact hnew m hmS hm hout
    · exact absurd ((hk.mem_iff hmS).mp hm) hout
  label m hm hm' := by
    by_cases hmS : m ∈ S
    · obtain ⟨hkind, hleaf, -⟩ := hboth m hmS hm hm'
      exact ⟨hkind, hleaf⟩
    · obtain ⟨hkind, htext, -⟩ := label_of_keepsBut ht hu hk hm hmS
      exact ⟨hkind, congrArg Option.isSome htext⟩
  parent m hm hm' hfree := by
    by_cases hmS : m ∈ S
    · exact (hboth m hmS hm hm').2.2 hfree
    · exact (label_of_keepsBut ht hu hk hm hmS).2.2
  -- What may have moved is trivia or free, and neither node is.
  order x y hxy hx hy hfx hfy := by
    have hout : ∀ m ∈ t.document.ids, t.kindIs m Kind.isTrivia = false →
        ¬free m → m ∉ S := by
      intro m hm hcode hfree hmS
      rcases hold m hmS hm with htrivia | ⟨hf, -⟩
      · simp [htrivia] at hcode
      · exact hfree hf
    exact hk.precedes (hout x hxy.mem_left hx hfx)
      (hout y hxy.mem_right hy hfy) hxy

end Steady

/-! ## Files -/

/-- The tree of a file in which white space, comments and the kinds of a
test are tokens. -/
structure Tidy (atoms : Kind → Bool) (t : Tree) : Prop where
  consistent : t.Consistent
  file : t.hasKind root .file = true
  atomic : t.document.Atomic fun k => k.isTrivia || atoms k

namespace Tidy

theorem sound (h : t.Tidy atoms) : t.Sound := h.consistent.sound

theorem isLeaf_of_kind (h : t.Tidy atoms) (hm : m ∈ t.document.ids) {k : Kind}
    (hk : t.kind? m = some k) (htest : (k.isTrivia || atoms k) = true) :
    t.isLeaf m = true :=
  h.atomic _ (h.sound.mem_labels_document_iff.mpr ⟨hm, hk, rfl⟩) htest

/-- White space and comments are tokens. -/
theorem isLeaf_of_trivia (h : t.Tidy atoms) (hm : m ∈ t.document.ids)
    (htrivia : t.kindIs m Kind.isTrivia = true) : t.isLeaf m = true := by
  obtain ⟨k, hk⟩ := h.sound.exists_kind hm
  rw [kindIs, hk, Option.any_some] at htrivia
  exact h.isLeaf_of_kind hm hk (by simp [htrivia])

/-- The root has no other kind than that of a file. -/
theorem ne_root (h : t.Tidy atoms) {test : Kind → Bool}
    (hk : t.kindIs m test = true) (hfile : test .file = false) : m ≠ root := by
  rintro rfl
  rw [kindIs, beq_iff_eq.mp h.file, Option.any_some, hfile] at hk
  cases hk

theorem ne_root_of_hasKind (h : t.Tidy atoms) {k : Kind}
    (hk : t.hasKind m k = true) (hfile : k ≠ .file) : m ≠ root := by
  rintro rfl
  exact hfile (Option.some.inj
    ((beq_iff_eq.mp hk).symm.trans (beq_iff_eq.mp h.file)))

/-- A file stays tidy as long as code is kept in place. -/
theorem steady (h : t.Tidy atoms) (hs : t.Steady free u)
    (hu : u.Consistent) : u.Tidy atoms where
  consistent := hu
  file := by
    have hkind :=
      (hs.label root h.sound.root_mem_document hu.sound.root_mem_document).1
    rw [hasKind, hkind]
    exact h.file
  atomic := by
    rintro ⟨m, k, y⟩ hl htest
    obtain ⟨hm, hk, rfl⟩ := hu.sound.mem_labels_document_iff.mp hl
    by_cases hold : m ∈ t.document.ids
    · obtain ⟨hk', hleaf⟩ := hs.label m hold hm
      rw [hk] at hk'
      exact hleaf.trans (h.isLeaf_of_kind hold hk'.symm htest)
    · exact (hs.fresh m hm hold).2.2

end Tidy

end TreeLint.Tree
