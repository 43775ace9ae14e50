import TreeLint.Proofs.Forest.Frame

/-!
# A tree with a hole

The way from the root of a tree down to a place in it is a list of layers,
the innermost first: the node there, and the trees below it on either side
of the place. Filling in a forest gives back a tree (`Context.fill`). Every
node of a tree can be reached in this way (`exists_fill`).

Whatever is asked about what was filled in, or done to it, is asked of the
filling and done to it alone (`subtree?_fill`, `Around.fill`, `remove_fill`,
`insertUnder_fill`). What stands around it comes out the same with every
filling (`labels_fill`, `roots_offspring_fill`).

Rules for parameter lists are followed from token to token in such a context
(specification, §13).
-/

namespace TreeLint.Forest

/-- A node with a hole among its children. -/
structure Layer where
  id : NodeId
  kind : Kind
  before : Forest
  after : Forest

/-- The way from a hole up to the root, innermost layer first. -/
abbrev Context := List Layer

namespace Context

/-- Put a forest into the hole. -/
def fill : Context → Forest → Forest
  | [], g => g
  | l :: C, g =>
    fill C (.node l.id l.kind (l.before.append (g.append l.after)) .nil)

/-- The labels that come before the hole, in pre-order. -/
def left : Context → List (NodeId × Kind × Option String)
  | [] => []
  | l :: C => left C ++ (l.id, l.kind, none) :: l.before.labels

/-- The labels that come after the hole. -/
def right : Context → List (NodeId × Kind × Option String)
  | [] => []
  | l :: C => l.after.labels ++ right C

def leftIds (C : Context) : List NodeId := C.left.map Prod.fst

def rightIds (C : Context) : List NodeId := C.right.map Prod.fst

/-- The tokens before the hole, in document order. -/
def leftTokens : Context → List Token
  | [] => []
  | l :: C => leftTokens C ++ l.before.tokens

/-- The tokens after the hole. -/
def rightTokens : Context → List Token
  | [] => []
  | l :: C => l.after.tokens ++ rightTokens C

end Context

open Context

variable {f g g' s x : Forest} {C : Context} {l : Layer} {m n p : NodeId}
  {pre post : List Token}

/-! ## One layer after another -/

@[simp] theorem leftIds_cons (l : Layer) (C : Context) :
    leftIds (l :: C) = C.leftIds ++ l.id :: l.before.ids := by
  simp [leftIds, left, map_fst_labels]

@[simp] theorem rightIds_cons (l : Layer) (C : Context) :
    rightIds (l :: C) = l.after.ids ++ C.rightIds := by
  simp [rightIds, right, map_fst_labels]

/-- The labels of a filled context: those left of the hole, those in it,
those right of it. -/
theorem labels_fill (C : Context) (g : Forest) :
    (C.fill g).labels = C.left ++ g.labels ++ C.right := by
  induction C generalizing g with
  | nil => simp [fill, left, right]
  | cons l C ih =>
    rw [fill, ih]
    simp [labels, labels_append, left, right]

theorem ids_fill (C : Context) (g : Forest) :
    (C.fill g).ids = C.leftIds ++ g.ids ++ C.rightIds := by
  rw [← map_fst_labels, labels_fill, List.map_append, List.map_append,
    map_fst_labels]
  rfl

/-- What is filled in does not stand around the hole as well. -/
theorem not_mem_context (h : (C.fill g).ids.Nodup) (hm : m ∈ g.ids) :
    m ∉ C.leftIds ∧ m ∉ C.rightIds := by
  rw [ids_fill, List.nodup_append, List.nodup_append] at h
  exact ⟨fun hl => h.1.2.2 m hl m hm rfl, fun hr =>
    h.2.2 m (List.mem_append_right _ hm) m hr rfl⟩

/-- The outermost layer is added last. -/
theorem fill_concat (C : Context) (l : Layer) (g : Forest) :
    (C ++ [l]).fill g = .node l.id l.kind
      (l.before.append ((C.fill g).append l.after)) .nil := by
  induction C generalizing g with
  | nil => rfl
  | cons l' C ih => exact ih _

/-- There is a way down to every node of a forest. -/
theorem exists_fill_append (h : f.subtree? n = some s) :
    ∃ (a : Forest) (C : Context) (b : Forest),
      f = a.append ((C.fill s).append b) := by
  induction f with
  | nil => cases h
  | token i k y r ih =>
    rw [subtree?] at h
    split at h
    · cases h
      exact ⟨.nil, [], r, rfl⟩
    · obtain ⟨a, C, b, rfl⟩ := ih h
      exact ⟨.token i k y a, C, b, rfl⟩
  | node i k c r ihc ihr =>
    rw [subtree?] at h
    split at h
    · cases h
      exact ⟨.nil, [], r, rfl⟩
    · rcases Option.or_eq_some_iff.mp h with hc | ⟨-, hr⟩
      · obtain ⟨a, C, b, rfl⟩ := ihc hc
        exact ⟨.nil, C ++ [⟨i, k, a, b⟩], r, by rw [fill_concat]; rfl⟩
      · obtain ⟨a, C, b, rfl⟩ := ihr hr
        exact ⟨.node i k c a, C, b, rfl⟩

/-- **There is a way down** to every node of a tree. -/
theorem exists_fill {r : NodeId} (hroots : f.roots = [r])
    (h : f.subtree? n = some s) :
    ∃ C : Context, f = C.fill s := by
  rcases eq_of_roots_eq_singleton hroots with ⟨k, y, rfl⟩ | ⟨k, c, rfl⟩
  · rw [subtree?] at h
    split at h
    · cases h
      exact ⟨[], rfl⟩
    · cases h
  · rw [subtree?] at h
    split at h
    · cases h
      exact ⟨[], rfl⟩
    · obtain ⟨a, C, b, rfl⟩ := exists_fill_append (by simpa [subtree?] using h)
      exact ⟨C ++ [⟨r, k, a, b⟩], (fill_concat C ⟨r, k, a, b⟩ s).symm⟩

/-! ## Looking into the hole -/

/-- A tree that stands in the hole is looked up in the hole. -/
theorem subtree?_fill (hm : m ∈ g.ids) (hl : m ∉ C.leftIds) :
    (C.fill g).subtree? m = g.subtree? m := by
  induction C generalizing g with
  | nil => rfl
  | cons l C ih =>
    simp only [leftIds_cons, List.mem_append, List.mem_cons, not_or] at hl
    obtain ⟨hC, hid, hbefore⟩ := hl
    obtain ⟨s, hs⟩ := exists_subtree hm
    rw [fill, ih (by simp [ids, hm]) hC, subtree?, if_neg (Ne.symm hid),
      subtree?_append, subtree?_append,
      (subtree?_eq_none_iff m l.before).mpr hbefore, hs]
    rfl

/-- Above a node in the hole there are those of the hole, then the layers.
-/
theorem ancestors?_fill (hm : m ∈ g.ids) (hl : m ∉ C.leftIds) :
    (C.fill g).ancestors? m = (g.ancestors? m).map (· ++ C.map Layer.id) := by
  induction C generalizing g with
  | nil => simp [fill]
  | cons l C ih =>
    simp only [leftIds_cons, List.mem_append, List.mem_cons, not_or] at hl
    obtain ⟨hC, hid, hbefore⟩ := hl
    obtain ⟨as, has⟩ := exists_ancestors hm
    rw [fill, ih (by simp [ids, hm]) hC, ancestors?, if_neg (Ne.symm hid),
      ancestors?_append, ancestors?_append,
      (ancestors?_eq_none_iff m l.before).mpr hbefore, has]
    simp

/-- What stands behind a forest does not matter to what is around a node in
it. -/
theorem Around.append_right (h : Around n f pre s post) (g : Forest) :
    Around n (f.append g) pre s (post ++ g.tokens) := by
  induction h with
  | token k y r => exact tokens_append r g ▸ .token k y (r.append g)
  | node k c r => exact tokens_append r g ▸ .node k c (r.append g)
  | behindToken hi _ ih => exact .behindToken hi ih
  | @inside i k c r s pre post hi hc _ =>
    rw [List.append_assoc, ← tokens_append]
    exact .inside hi hc
  | behindNode hi hc _ ih => exact .behindNode hi hc ih

/-- The place of a node in the hole, seen from outside. -/
theorem Around.fill (h : Around n g pre s post) (hl : n ∉ C.leftIds) :
    Around n (C.fill g) (C.leftTokens ++ pre) s (post ++ C.rightTokens) := by
  induction C generalizing g pre post with
  | nil => simpa [Context.fill, leftTokens, rightTokens] using h
  | cons l C ih =>
    simp only [leftIds_cons, List.mem_append, List.mem_cons, not_or] at hl
    obtain ⟨hC, hid, hbefore⟩ := hl
    have hlayer := Around.inside (k := l.kind) (r := .nil) (Ne.symm hid)
      ((h.append_right l.after).append hbefore)
    simpa [Context.fill, leftTokens, rightTokens, tokens] using ih hlayer hC

/-! ## Working in the hole -/

theorem setText_append_right (y : String) (hn : n ∉ f.ids) (g : Forest) :
    (f.append g).setText n y = f.append (g.setText n y) := by
  induction f with
  | nil => rfl
  | token i k t r ih =>
    simp only [ids, List.mem_cons, not_or] at hn
    rw [append, setText, if_neg (Ne.symm hn.1), ih hn.2, append]
  | node i k c r _ ih =>
    simp only [ids, List.mem_cons, List.mem_append, not_or] at hn
    rw [append, setText, setText_of_not_mem y hn.2.1, ih hn.2.2, append]

theorem insertUnder_append_right (i : Nat) (x : Forest) (hp : p ∉ f.ids)
    (g : Forest) :
    insertUnder p i x (f.append g) = f.append (insertUnder p i x g) := by
  induction f with
  | nil => rfl
  | token j k t r ih =>
    simp only [ids, List.mem_cons, not_or] at hp
    rw [append, insertUnder, ih hp.2, append]
  | node j k c r _ ih =>
    simp only [ids, List.mem_cons, List.mem_append, not_or] at hp
    rw [append, insertUnder, if_neg (Ne.symm hp.1),
      insertUnder_of_not_mem i x hp.2.1, ih hp.2.2, append]

/-- **Work in the hole is work on the whole,** for taking a tree out. -/
theorem remove_fill (hl : n ∉ C.leftIds) (hr : n ∉ C.rightIds) :
    (C.fill g).remove n = C.fill (g.remove n) := by
  induction C generalizing g with
  | nil => rfl
  | cons l C ih =>
    simp only [leftIds_cons, rightIds_cons, List.mem_append, List.mem_cons,
      not_or] at hl hr
    rw [fill, ih hl.1 hr.2, remove, if_neg (Ne.symm hl.2.1),
      remove_append_right hl.2.2, remove_append hr.1]
    rfl

/-- The same for a new text. -/
theorem setText_fill (y : String) (hl : n ∉ C.leftIds) (hr : n ∉ C.rightIds) :
    (C.fill g).setText n y = C.fill (g.setText n y) := by
  induction C generalizing g with
  | nil => rfl
  | cons l C ih =>
    simp only [leftIds_cons, rightIds_cons, List.mem_append, List.mem_cons,
      not_or] at hl hr
    rw [fill, ih hl.1 hr.2, setText, setText_append_right y hl.2.2,
      setText_append y hr.1]
    rfl

/-- And for putting a tree under a node of the hole. -/
theorem insertUnder_fill (i : Nat) (x : Forest) (hl : p ∉ C.leftIds)
    (hr : p ∉ C.rightIds) :
    insertUnder p i x (C.fill g) = C.fill (insertUnder p i x g) := by
  induction C generalizing g with
  | nil => rfl
  | cons l C ih =>
    simp only [leftIds_cons, rightIds_cons, List.mem_append, List.mem_cons,
      not_or] at hl hr
    rw [fill, ih hl.1 hr.2, insertUnder, if_neg (Ne.symm hl.2.1),
      insertUnder_append_right i x hl.2.2,
      insertUnder_append i x hr.1]
    rfl

/-- What is put under the innermost node right behind the filling becomes
part of it. -/
theorem insertUnder_fill_cons (h : (fill (l :: C) g).ids.Nodup) (x : Forest) :
    insertUnder l.id (l.before.roots.length + g.roots.length) x
      (fill (l :: C) g) = fill (l :: C) (g.append x) := by
  obtain ⟨hl, hr⟩ := not_mem_context (C := C) h (m := l.id) (by simp [ids])
  have hinsert : insertAt x (l.before.roots.length + g.roots.length)
      (l.before.append (g.append l.after)) =
      l.before.append ((g.append x).append l.after) := by
    rw [← append_assoc, ← List.length_append, ← roots_append,
      insertAt_length_roots]
    simp only [append_assoc]
  rw [fill, insertUnder_fill _ _ hl hr, insertUnder, if_pos rfl, hinsert]
  rfl

/-! ## Around the hole -/

/-- The first of two forests that has the node answers for its children. -/
theorem offspring_append (p : NodeId) (f g : Forest) :
    (f.append g).offspring p = if p ∈ f.ids then f.offspring p
      else g.offspring p := by
  unfold offspring
  rw [subtree?_append]
  split
  · next hp =>
    obtain ⟨s, hs⟩ := exists_subtree hp
    rw [hs]
    rfl
  · next hp =>
    rw [(subtree?_eq_none_iff p f).mpr hp]
    rfl

/-- Nodes around the hole have the children they had, if the trees filled in
have the same roots. -/
theorem roots_offspring_fill (hroots : g.roots = g'.roots)
    (h : (C.fill g).ids.Nodup) (hm : m ∉ g.ids) (hm' : m ∉ g'.ids) :
    ((C.fill g).offspring m).roots = ((C.fill g').offspring m).roots := by
  induction C generalizing g g' with
  | nil => simp [fill, offspring_of_not_mem hm, offspring_of_not_mem hm']
  | cons l C ih =>
    rw [fill, fill]
    -- Either the node is part of this layer, and then it has the hole among
    -- or beside its children; or it is further out.
    by_cases hlayer : m = l.id ∨ m ∈ l.before.ids ∨ m ∈ l.after.ids
    · have hin : ∀ g : Forest,
          m ∈ (Forest.node l.id l.kind (l.before.append (g.append l.after))
            .nil).ids := by
        intro g
        simp only [ids, ids_append, List.mem_cons, List.mem_append]
        tauto
      have hl := (not_mem_context (C := C) h (hin g)).1
      have hfill : ∀ g : Forest,
          (fill C (.node l.id l.kind (l.before.append (g.append l.after))
            .nil)).offspring m =
          (Forest.node l.id l.kind (l.before.append (g.append l.after))
              .nil).offspring m := by
        intro g
        rw [offspring, subtree?_fill (hin g) hl]
        rfl
      rw [hfill, hfill, offspring_node, offspring_node]
      split
      · simp [hroots]
      · next hne =>
        have hbelow : ∀ g : Forest,
            m ∈ (l.before.append (g.append l.after)).ids := by
          intro g
          simpa [ids, Ne.symm hne] using hin g
        rw [if_pos (hbelow g), if_pos (hbelow g'), offspring_append,
          offspring_append, offspring_append,
          offspring_append, if_neg hm, if_neg hm']
    · have hout : ∀ g : Forest, m ∉ g.ids →
          m ∉ (Forest.node l.id l.kind (l.before.append (g.append l.after))
              .nil).ids := by
        intro g hg
        simp only [ids, ids_append, List.mem_cons, List.mem_append]
        tauto
      exact ih rfl h (hout g hm) (hout g' hm')

end TreeLint.Forest
