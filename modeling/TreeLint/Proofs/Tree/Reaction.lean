import TreeLint.Proofs.Tree.Steady

/-!
# What a visit may do to a document

Rules that keep code where it is, but for the token they are called for,
leave a walk on its way. `Reaction` says what such rules may do when they
are called for a node: nothing for white space, comments and the root; only
edits of white space for a composite node; and for a token of code also a
move of that token. A token that is moved goes back, right behind a token
that stood before it (`Behind`), or it goes ahead, and then it rests: called
for it once more, the rules leave the document alone.

What rests is left open. Reactions can follow each other (`Reaction.trans`),
as the rules called for a node do.

The walk is that of the specification, §4.3.
-/

namespace TreeLint.Tree

variable {t u w : Tree} {m v x y : NodeId} {free : NodeId → Prop}
  {atoms : Kind → Bool} {rests : Forest → NodeId → Prop}

/-- A node of the document that is neither white space nor a comment. -/
def IsCode (t : Tree) (m : NodeId) : Prop :=
  m ∈ t.document.ids ∧ t.kindIs m Kind.isTrivia = false

theorem IsCode.mem (h : t.IsCode m) : m ∈ t.document.ids := h.1

namespace Steady

theorem isCode (h : t.Steady free u) (hm : t.IsCode m) : u.IsCode m := by
  have hmu := h.kept m hm.1 hm.2
  exact ⟨hmu, (h.kindIs hm.1 hmu _).trans hm.2⟩

/-- Only white space is added. -/
theorem isCode_iff (h : t.Steady free u) : u.IsCode m ↔ t.IsCode m := by
  refine ⟨fun hm => ?_, h.isCode⟩
  by_cases hmt : m ∈ t.document.ids
  · exact ⟨hmt, (h.kindIs hmt hm.1 _).symm.trans hm.2⟩
  · obtain ⟨-, hkind, -⟩ := h.fresh m hm.1 hmt
    have htrivia := hm.2
    rw [Tree.kindIs, hkind] at htrivia
    cases htrivia

theorem isLeaf (h : t.Steady free u) (hm : t.IsCode m) :
    u.isLeaf m = t.isLeaf m :=
  (h.label m hm.1 (h.isCode hm).1).2

theorem parent_of_isCode (h : t.Steady free u) (hm : t.IsCode m)
    (hfree : ¬free m) : u.parent? m = t.parent? m :=
  h.parent m hm.1 (h.isCode hm).1 hfree

theorem precedes_iff (h : t.Steady free u) (ht : t.Sound) (hu : u.Sound)
    (hx : t.IsCode x) (hy : t.IsCode y) (hfx : ¬free x) (hfy : ¬free y) :
    u.document.Precedes x y ↔ t.document.Precedes x y :=
  h.order_iff ht hu hx.1 hy.1 hx.2 hy.2 hfx hfy

end Steady

/-! ## Tokens -/

/-- The token `v` was put behind a token of code that stood before it, with
no code among its siblings in between. -/
def Behind (v : NodeId) (t u : Tree) : Prop :=
  ∃ z, t.IsCode z ∧ t.isLeaf z = true ∧ t.document.Precedes z v ∧
    u.parent? v = u.parent? z ∧
    ∀ d, u.IsCode d → d ≠ v → u.parent? d = u.parent? z →
      u.document.Precedes z d → u.document.Precedes v d

/-- What may happen to a token of code: it stays, goes back or goes ahead to
rest, past no other token of code. -/
structure Lands (rests : Forest → NodeId → Prop) (v : NodeId)
    (t u : Tree) : Prop where
  steady : t.Steady (· = v) u
  before : ∀ y, u.IsCode y → u.isLeaf y = true → u.document.Precedes y v →
    t.document.Precedes y v
  resting : rests t.document v → u.document = t.document
  place : t.Steady (fun _ => False) u ∨ Behind v t u ∨ rests u.document v

namespace Lands

/-- A token that stays where it is. -/
theorem of_steady (h : t.Steady (fun _ => False) u) (ht : t.Sound)
    (hu : u.Sound) (hv : t.IsCode v)
    (hrest : rests t.document v → u.document = t.document) :
    Lands rests v t u where
  steady := h.mono fun _ hf => hf.elim
  before _ hy _ hyv :=
    (h.precedes_iff ht hu (h.isCode_iff.mp hy) hv id id).mp hyv
  resting := hrest
  place := Or.inl h

/-- Landing twice in one visit is landing once. -/
theorem trans (h : Lands rests v t u) (h' : Lands rests v u w) (ht : t.Sound)
    (hu : u.Sound) (hw : w.Sound) (hv : t.IsCode v) : Lands rests v t w where
  steady := h.steady.trans h'.steady ht
  before y hy hleaf hyv := by
    have hyu := h'.steady.isCode_iff.mp hy
    exact h.before y hyu ((h'.steady.isLeaf hyu).symm.trans hleaf)
      (h'.before y hy hleaf hyv)
  resting hrest := by
    have hdoc := h.resting hrest
    exact (h'.resting (hdoc ▸ hrest)).trans hdoc
  place := by
    -- What the second step did decides, unless it moved nothing: then it is
    -- what the first one did.
    rcases h'.place with hsteady | ⟨z, hz, hleaf, hzv, hparent,
      hbetween⟩ | hrest
    · rcases h.place with hsteady₀ | ⟨z, hz, hleaf, hzv, hparent,
        hbetween⟩ | hrest
      · exact Or.inl (hsteady₀.trans hsteady ht)
      · have hzu := h.steady.isCode hz
        have hvu := h.steady.isCode hv
        refine Or.inr (Or.inl ⟨z, hz, hleaf, hzv, ?_,
          fun d hd hne hdz hzd => ?_⟩)
        · rw [hsteady.parent_of_isCode hvu id,
            hsteady.parent_of_isCode hzu id, hparent]
        · have hdu := hsteady.isCode_iff.mp hd
          rw [hsteady.parent_of_isCode hdu id, hsteady.parent_of_isCode hzu id]
            at hdz
          rw [hsteady.precedes_iff hu hw hzu hdu id id] at hzd
          rw [hsteady.precedes_iff hu hw hvu hdu id id]
          exact hbetween d hdu hne hdz hzd
      · exact Or.inr (Or.inr (h'.resting hrest ▸ hrest))
    · have hzt := h.steady.isCode_iff.mp hz
      have hleaf' := (h.steady.isLeaf hzt).symm.trans hleaf
      exact Or.inr (Or.inl ⟨z, hzt, hleaf', h.before z hz hleaf hzv,
        hparent, hbetween⟩)
    · exact Or.inr (Or.inr hrest)

end Lands

/-! ## Nodes -/

/-- What may be done to a document when rules are called for a node of it. -/
structure Reaction (rests : Forest → NodeId → Prop) (v : NodeId)
    (t u : Tree) : Prop where
  grows : t.count ≤ u.count
  still : v = root ∨ t.kindIs v Kind.isTrivia = true → u.document = t.document
  composite : t.isLeaf v = false → t.Steady (fun _ => False) u ∧
    ∀ m, t.IsCode m → t.document.Precedes v m → rests t.document m →
      rests u.document m
  token : t.IsCode v → t.isLeaf v = true → Lands rests v t u

namespace Reaction

theorem of_document_eq (ht : t.Sound) (hu : u.Sound)
    (hdoc : u.document = t.document) (hc : t.count ≤ u.count) :
    Reaction rests v t u where
  grows := hc
  still _ := hdoc
  composite _ := ⟨.of_document_eq ht hu hdoc hc, fun _ _ _ hrest =>
    hdoc ▸ hrest⟩
  token hv _ := .of_steady (.of_document_eq ht hu hdoc hc) ht hu hv
    fun _ => hdoc

/-- Edits of white space, for a node that never rests. -/
theorem of_steady (h : t.Steady (fun _ => False) u) (ht : t.Sound)
    (hu : u.Sound) (hroot : v ≠ root) (hv : t.IsCode v)
    (hrest : ¬rests t.document v)
    (hkeep : ∀ m, t.IsCode m → t.document.Precedes v m → rests t.document m →
      rests u.document m) :
    Reaction rests v t u where
  grows := h.grows
  still hv' := by
    rcases hv' with rfl | htrivia
    · exact absurd rfl hroot
    · simp [hv.2] at htrivia
  composite _ := ⟨h, hkeep⟩
  token _ _ := .of_steady h ht hu hv fun hr => absurd hr hrest

/-- A token that lands somewhere is a reaction of the visit to it. -/
theorem of_lands (h : Lands rests v t u) (hroot : v ≠ root) (hv : t.IsCode v)
    (hleaf : t.isLeaf v = true) :
    Reaction rests v t u where
  grows := h.steady.grows
  still hv' := by
    rcases hv' with rfl | htrivia
    · exact absurd rfl hroot
    · simp [hv.2] at htrivia
  composite hcomp := by simp [hleaf] at hcomp
  token _ _ := h

theorem steady (h : Reaction rests v t u) (ht : t.Sound) (hu : u.Sound)
    (hv : v ∈ t.document.ids) : t.Steady (· = v) u := by
  by_cases htrivia : t.kindIs v Kind.isTrivia = true
  · exact .of_document_eq ht hu (h.still (Or.inr htrivia)) h.grows
  · cases hleaf : t.isLeaf v with
    | false => exact (h.composite hleaf).1.mono fun _ hf => hf.elim
    | true => exact (h.token ⟨hv, Bool.eq_false_iff.mpr htrivia⟩ hleaf).steady

/-- The node stays attached, and is what it was. -/
theorem mem (h : Reaction rests v t u) (ht : t.Sound) (hu : u.Sound)
    (hv : v ∈ t.document.ids) : v ∈ u.document.ids := by
  by_cases htrivia : t.kindIs v Kind.isTrivia = true
  · rw [h.still (Or.inr htrivia)]
    exact hv
  · exact (h.steady ht hu hv).kept v hv (Bool.eq_false_iff.mpr htrivia)

/-- Reactions of several rules to one visit are one reaction. -/
theorem trans (h : Reaction rests v t u) (h' : Reaction rests v u w)
    (ht : t.Sound) (hu : u.Sound) (hw : w.Sound) (hv : v ∈ t.document.ids)
    (hcode : t.isLeaf v = false → t.IsCode v) : Reaction rests v t w := by
  have hsteady := h.steady ht hu hv
  have hvu := h.mem ht hu hv
  obtain ⟨-, hleaf⟩ := hsteady.label v hv hvu
  refine ⟨Nat.le_trans h.grows h'.grows, fun hv' => ?_, fun hcomp => ?_,
    fun hvt htoken => ?_⟩
  · have hkind := hsteady.kindIs hv hvu Kind.isTrivia
    exact (h'.still (hv'.imp id hkind.trans)).trans (h.still hv')
  · obtain ⟨hs, hrest⟩ := h.composite hcomp
    obtain ⟨hs', hrest'⟩ := h'.composite (hleaf.trans hcomp)
    refine ⟨hs.trans hs' ht, fun m hm hvm hr =>
      hrest' m (hs.isCode hm) ?_ (hrest m hm hvm hr)⟩
    exact (hs.precedes_iff ht hu (hcode hcomp) hm id id).mpr hvm
  · exact (h.token hvt htoken).trans
      (h'.token (hsteady.isCode hvt) (hleaf.trans htoken)) ht hu hw hvt

end Reaction

/-- In a tidy file a composite node is code. -/
theorem Tidy.isCode_of_composite (h : t.Tidy atoms) (hm : m ∈ t.document.ids)
    (hleaf : t.isLeaf m = false) : t.IsCode m := by
  refine ⟨hm, Bool.eq_false_iff.mpr fun htrivia => ?_⟩
  rw [h.isLeaf_of_trivia hm htrivia] at hleaf
  cases hleaf

/-- What happens in a transaction has happened when it is closed. -/
theorem Reaction.closed (h : Reaction rests v t.begin u) (ht : t.Tidy atoms)
    (hu : u.Sound) (hv : v ∈ t.document.ids) (c : Checkpoint) :
    Reaction rests v t (u.commit c) := by
  have hcode := ht.isCode_of_composite hv
  have hopened : t.begin.Sound := ht.consistent.begin.sound
  have hclosed : (u.commit c).Sound :=
    ⟨hu.nodup, hu.mem_ids, hu.sorted, hu.root_mem⟩
  have hbegun : Reaction rests v t u :=
    .trans (.of_document_eq ht.sound hopened rfl (Nat.le_refl _)) h ht.sound
      hopened hu hv hcode
  exact hbegun.trans (.of_document_eq hu hclosed rfl (Nat.le_refl _)) ht.sound
    hu hclosed hv hcode

end TreeLint.Tree
