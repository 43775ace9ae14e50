import TreeLint.Proofs.Tree.Reachable

/-!
# Rolling back is exact

A transaction is opened, anything is done to the tree, and the transaction
is rolled back. Inner transactions may be opened, committed and rolled back
in any order, or left open, as long as they use checkpoints that were handed
out inside the outer one (`ownCheckpoints`). Then the forest is the one
there was before, with the nodes created in the meantime standing behind it,
each on its own; and the journal is exactly the one there was before
(`rollback_restores`).

The invariant behind it is `Within`: the entries made since the transaction
was opened stand on top of the journal, and taking them back now would give
the old forest and the new nodes.

Specification, §4.3: the tree is rolled back to the state before the call.
-/

namespace TreeLint

/-- The checkpoint an operation is given. -/
def Op.checkpoint? : Op → Option Checkpoint
  | .commit c => some c
  | .rollback c => some c
  | _ => none

/-- The checkpoint an answer hands out. -/
def Reply.checkpoint? : Reply → Option Checkpoint
  | .opened c => some c
  | _ => none

/-- Whether a run uses only the checkpoints in `issued` and those it was
handed out on the way. -/
def ownCheckpoints : List Op → Tree → List Checkpoint → Bool
  | [], _, _ => true
  | op :: ops, t, issued =>
    op.checkpoint?.all issued.contains &&
      ownCheckpoints ops (op.apply t).1
        ((op.apply t).2.checkpoint?.toList ++ issued)

/-- An edit hands out no checkpoint. -/
theorem reply_checkpoint? (e : Edited) : e.reply.checkpoint? = none := by
  unfold Edited.reply
  split <;> rfl

/-! ## Nodes on their own -/

namespace Forest

/-- No node has another one below it. -/
def Scattered : Forest → Prop
  | .nil => True
  | .token _ _ _ r => r.Scattered
  | .node _ _ c r => c = .nil ∧ r.Scattered

variable {f g : Forest} {n : NodeId}

theorem Scattered.append (hf : f.Scattered) (hg : g.Scattered) :
    (f.append g).Scattered := by
  induction f with
  | nil => exact hg
  | token i k t r ih => exact ih hf
  | node i k c r _ ih => exact ⟨hf.1, ih hf.2⟩

theorem Scattered.roots_eq (hf : f.Scattered) : f.roots = f.ids := by
  induction f with
  | nil => rfl
  | token i k t r ih => simp [roots, ids, ih hf]
  | node i k c r _ ih => simp [roots, ids, hf.1, ih hf.2]

theorem Scattered.offspring_eq (hf : f.Scattered) (n : NodeId) :
    f.offspring n = .nil := by
  induction f with
  | nil => rfl
  | token i k t r ih => rw [offspring_token, ih hf]; split <;> rfl
  | node i k c r _ ih =>
    obtain ⟨rfl, hr⟩ := hf
    rw [offspring_node, ih hr]
    simp [ids]

end Forest

namespace Tree

variable {b t u v w : Tree} {fresh x : Forest} {n : NodeId} {op : Op}

theorem Seed.scattered (s : Seed t x) : x.Scattered := by
  cases s with
  | token k y => trivial
  | node k => exact ⟨rfl, trivial⟩

/-- Two trees have the same node under one identity. -/
structure SameNode (t u : Tree) (n : NodeId) : Prop where
  kind : u.kind? n = t.kind? n
  text : u.tokenText? n = t.tokenText? n
  parent : u.parent? n = t.parent? n
  children : u.children n = t.children n

/-- Trees that stand behind all others change no other node. -/
theorem sameNode_of_append (hf : u.forest = t.forest.append x)
    (hn : t.contains n = true) : SameNode t u n := by
  have hsub : u.subtree n = t.subtree n := by
    obtain ⟨s, hs⟩ := Forest.exists_subtree (contains_iff_mem.mp hn)
    simp [subtree, hf, Forest.subtree?_append, hs]
  have habove : u.ancestors n = t.ancestors n := by
    obtain ⟨as, ha⟩ := Forest.exists_ancestors (contains_iff_mem.mp hn)
    simp [ancestors, hf, Forest.ancestors?_append, ha]
  exact ⟨by rw [kind?, kind?, hsub], by rw [tokenText?, tokenText?, hsub],
    by rw [parent?, parent?, habove], by rw [Tree.children,
      Tree.children, hsub]⟩

/-- A node that stands behind all others, on its own, has no parent and no
children. -/
theorem alone_of_append (hu : u.Sound) (hf : u.forest = t.forest.append x)
    (hx : x.Scattered) (hnt : n ∉ t.forest.ids) (hnx : n ∈ x.ids) :
    u.parent? n = none ∧ u.children n = [] := by
  have hroot : n ∈ u.forest.roots := by
    rw [hf, Forest.roots_append, hx.roots_eq]
    exact List.mem_append_right _ hnx
  have hoff : u.forest.offspring n = x.offspring n := by
    simp [Forest.offspring, hf, Forest.subtree?_append,
      (Forest.subtree?_eq_none_iff n _).mpr hnt]
  refine ⟨(hu.mem_roots_iff.mp hroot).2, ?_⟩
  rw [children_eq_roots, hoff, hx.offspring_eq]
  rfl

theorem kind?_of_mem_labels (h : t.Sound) {k : Kind} {y : Option String}
    (hm : (n, k, y) ∈ t.forest.labels) :
    t.kind? n = some k ∧ t.tokenText? n = y := by
  obtain ⟨s, hs, hk, hy⟩ := (Forest.mem_labels_iff h.nodup).mp hm
  rw [kind?, tokenText?, subtree_of_subtree? hs]
  exact ⟨hk, hy⟩

/-! ## Inside a transaction -/

/-- `v` came about inside a transaction opened in `b`: taking back what was
recorded since gives the forest of `b` and behind it the nodes created
since. -/
structure Within (b : Tree) (fresh : Forest) (v : Tree) : Prop where
  consistent : v.Consistent
  marks : ∃ ms, v.journal.marks = ms ++ b.begin.journal.marks
  entries : ∃ es, v.journal.entries = es ++ b.journal.entries ∧
    (takenBack es v).forest = b.forest.append fresh

/-- A checkpoint handed out inside a transaction opened in `b`. -/
def Inner (b : Tree) (c : Checkpoint) : Prop :=
  b.journal.marks.length < c.depth ∧ b.journal.entries.length ≤ c.mark

namespace Within

theorem begin (hb : b.Consistent) : Within b .nil b.begin where
  consistent := hb.begin
  marks := ⟨[], rfl⟩
  entries := ⟨[], rfl, (Forest.append_nil _).symm⟩

theorem marks_ne_nil (h : Within b fresh v) : v.journal.marks ≠ [] := by
  obtain ⟨ms, hms⟩ := h.marks
  simp [hms, Tree.begin]

/-- A checkpoint made inside a transaction is an inner one: going back to it
does not leave the transaction. -/
theorem inner_checkpoint (h : Within b fresh v) : Inner b v.checkpoint := by
  obtain ⟨ms, hms⟩ := h.marks
  obtain ⟨es, hes, -⟩ := h.entries
  simp only [Inner, checkpoint, hms, hes, Tree.begin, List.length_append,
    List.length_cons]
  omega

/-- **Step.** A recorded change stays inside, with one more entry to take
back. -/
theorem recorded (h : Within b fresh v) (hc : Recorded v w) :
    Within b fresh w := by
  refine ⟨h.consistent.recorded hc, ?_, ?_⟩
  · cases hc with
    | intro hc => rw [record_marks, hc.journal]; exact h.marks
  · obtain ⟨es, hes, hback⟩ := h.entries
    cases hc with
    | @intro e u hc =>
      have hopen : u.journal.marks ≠ [] := hc.journal ▸ h.marks_ne_nil
      refine ⟨e :: es, ?_, ?_⟩
      · rw [record_entries_of_open hopen, hc.journal, hes, List.cons_append]
      · have hforest : ((u.record e).undo e).forest = v.forest :=
          (undo_forest_congr e (record_forest u e)).trans
            (hc.undo_forest h.consistent.sound)
        exact (takenBack_forest_congr es hforest).trans hback

theorem changes (h : Within b fresh v) (hc : Changes v w) :
    Within b fresh w := by
  induction hc with
  | refl => exact h
  | tail _ hstep ih => exact ih.recorded hstep

theorem grow (h : Within b fresh v) (s : Seed v x) :
    Within b (fresh.append x) (v.grow x) := by
  obtain ⟨es, hes, hback⟩ := h.entries
  refine ⟨h.consistent.grow s, h.marks, es, hes, ?_⟩
  have hr := h.consistent.replayable
  rw [hes, replayable_append] at hr
  rw [takenBack_grow hr.1 h.consistent.sound s, hback, Forest.append_assoc]

theorem opened (h : Within b fresh v) : Within b fresh v.begin := by
  obtain ⟨ms, hms⟩ := h.marks
  obtain ⟨es, hes, hback⟩ := h.entries
  refine ⟨h.consistent.begin, ⟨v.journal.entries.length :: ms, ?_⟩, es, hes, ?_⟩
  · simp only [Tree.begin, hms, List.cons_append]
  · rw [takenBack_forest_congr es (show v.begin.forest = v.forest from rfl),
      hback]

/-- Closing inner transactions leaves the outer one open. -/
theorem close (h : Within b fresh v) {c : Checkpoint} (hc : Inner b c) :
    Within b fresh (v.close c) := by
  obtain ⟨ms, hms⟩ := h.marks
  obtain ⟨es, hes, hback⟩ := h.entries
  have hlen : v.journal.marks.length - c.depth ≤ ms.length := by
    have := hc.1
    simp only [hms, Tree.begin, List.length_append, List.length_cons]
    omega
  have hdrop : v.journal.marks.drop (v.journal.marks.length - c.depth) =
      ms.drop (v.journal.marks.length - c.depth) ++ b.begin.journal.marks := by
    rw [hms] at hlen ⊢
    exact List.drop_append_of_le_length hlen
  refine ⟨h.consistent.close c, ⟨_, hdrop⟩, es, ?_, ?_⟩
  · simp only [Tree.close, hdrop]
    simpa [Tree.begin] using hes
  · rw [takenBack_forest_congr es (show (v.close c).forest = v.forest from rfl),
      hback]

/-- Taking back to an inner mark takes back nothing from before. -/
theorem unwind (h : Within b fresh v) {mark : Nat}
    (hm : b.journal.entries.length ≤ mark) :
    Within b fresh (Tree.unwind mark v.journal.entries v) := by
  have hcons := h.consistent.unwind mark
  obtain ⟨es, hes, hback⟩ := h.entries
  -- The entries to be undone are the first ones of those written since `b`.
  let k := v.journal.entries.length - mark
  have hk : k ≤ es.length := by
    simp only [k, hes, List.length_append]
    omega
  have htake : v.journal.entries.take k = es.take k := by
    rw [hes]
    exact List.take_append_of_le_length hk
  have hdrop : v.journal.entries.drop k = es.drop k ++ b.journal.entries := by
    rw [hes]
    exact List.drop_append_of_le_length hk
  rw [unwind_eq] at hcons ⊢
  refine ⟨hcons, h.marks, es.drop k, hdrop, ?_⟩
  calc (takenBack (es.drop k) { takenBack (v.journal.entries.take k) v with
          journal := { v.journal with
            entries := v.journal.entries.drop k } }).forest
      = (takenBack (es.drop k) (takenBack (es.take k) v)).forest := by
        rw [htake]
        exact takenBack_forest_congr _ rfl
    _ = (takenBack es v).forest := by
      rw [← takenBack_append, List.take_append_drop]
    _ = b.forest.append fresh := hback

/-- What one operation adds to the nodes created since: nothing, or the node
it creates. -/
def Adds (v w : Tree) (x : Forest) : Prop :=
  x = .nil ∧ w.count = v.count ∨ Seed v x ∧ w.count = v.count + 1 ∧
    x.labels ⊆ w.forest.labels

theorem Changes.count (hc : Changes v w) : w.count = v.count := by
  induction hc with
  | refl => rfl
  | tail _ hstep ih =>
    cases hstep with
    | intro hc => rw [record_count, ← ih]; cases hc <;> rfl

/-- **Step.** Every operation stays inside the transaction as long as it
does not go back to a checkpoint from before it, and adds at most nodes of
its own. -/
theorem effect (h : Within b fresh v) (he : Effect v op w)
    (hop : ∀ c ∈ op.checkpoint?, Inner b c) :
    ∃ x, Within b (fresh.append x) w ∧ Adds v w x := by
  -- One case for each thing an operation can come down to; only those that
  -- create a node add to what is fresh.
  cases he with
  | changed hc =>
    refine ⟨.nil, ?_, Or.inl ⟨rfl, Changes.count hc⟩⟩
    rw [Forest.append_nil]
    exact h.changes hc
  | @created _ x s =>
    refine ⟨x, h.grow s, Or.inr ⟨s, rfl, fun l hl => ?_⟩⟩
    rw [Tree.grow, Forest.labels_append]
    exact List.mem_append_right _ hl
  | @attached _ x s p i c g =>
    refine ⟨x, (h.grow s).recorded (.intro (.graft g)),
      Or.inr ⟨s, ?_, fun l hl => ?_⟩⟩
    · rw [record_count]
      rfl
    · rw [record_forest, (g.labels (h.consistent.sound.grow s)).mem_iff,
        Tree.grow,
        Forest.labels_append]
      exact List.mem_append_right _ hl
  | opened =>
    exact ⟨.nil, by rw [Forest.append_nil]; exact h.opened, Or.inl ⟨rfl, rfl⟩⟩
  | committed c =>
    exact ⟨.nil, by rw [Forest.append_nil]; exact h.close (hop c rfl),
      Or.inl ⟨rfl, rfl⟩⟩
  | rolledBack c =>
    refine ⟨.nil, ?_, Or.inl ⟨rfl, ?_⟩⟩
    · rw [Forest.append_nil]
      exact (h.unwind (hop c rfl).2).close (hop c rfl)
    · simp [Tree.rollback, Tree.close, unwind_eq]

/-- The node with label `l` was created in a run: some operation of the run
found its identity free and left it taken, with that label. -/
def Born (ops : List Op) (v : Tree)
    (l : NodeId × Kind × Option String) : Prop :=
  ∃ before op after, ops = before ++ op :: after ∧
    (Op.run v before).count ≤ l.1 ∧
    l.1 < (op.apply (Op.run v before)).1.count ∧
    l ∈ (op.apply (Op.run v before)).1.forest.labels

theorem Born.cons {ops : List Op} {l : NodeId × Kind × Option String}
    (h : Born ops (op.apply v).1 l) : Born (op :: ops) v l := by
  obtain ⟨before, op', after, rfl, hlo, hhi, hl⟩ := h
  exact ⟨op :: before, op', after, rfl, hlo, hhi, hl⟩

/-- What an operation adds was created by it. -/
theorem Adds.born {ops : List Op} {l : NodeId × Kind × Option String}
    (ha : Adds v (op.apply v).1 x) (hl : l ∈ x.labels) :
    Born (op :: ops) v l := by
  rcases ha with ⟨rfl, -⟩ | ⟨s, hcount, hsub⟩
  · cases hl
  · have hid : l.1 = v.count := by
      have hm : l.1 ∈ x.ids := Forest.map_fst_labels x ▸ List.mem_map_of_mem hl
      simpa [s.ids] using hm
    have hlt : l.1 < (op.apply v).1.count := by
      rw [hcount, hid]
      exact Nat.lt_succ_self _
    exact ⟨[], op, ops, rfl, Nat.le_of_eq hid.symm, hlt, hsub hl⟩

theorem Adds.scattered (ha : Adds v w x) : x.Scattered := by
  rcases ha with ⟨rfl, -⟩ | ⟨s, -⟩
  · trivial
  · exact s.scattered

/-- Checkpoints are handed out by opening a transaction, and by nothing else. -/
theorem eq_checkpoint_of_reply {c : Checkpoint}
    (h : c ∈ (op.apply v).2.checkpoint?) : c = v.checkpoint := by
  cases op with
  | begin => exact (Option.some.inj h).symm
  | newToken | newNode | commit | rollback =>
    simp [Op.apply, Reply.checkpoint?] at h
  | _ => simp [Op.apply, Op.edit?, reply_checkpoint?] at h

/-- **A whole run inside a transaction** stays inside it. -/
theorem run {ops : List Op} {issued : List Checkpoint} (h : Within b fresh v)
    (hissued : ∀ c ∈ issued, Inner b c)
    (hown : ownCheckpoints ops v issued = true) :
    ∃ x, Within b (fresh.append x) (Op.run v ops) ∧ x.Scattered ∧
      ∀ l ∈ x.labels, Born ops v l := by
  -- Along the operations: the checkpoints handed out so far all lie within
  -- the one of `b`.
  induction ops generalizing v fresh issued with
  | nil =>
    refine ⟨.nil, ?_, trivial, fun l hl => nomatch hl⟩
    rw [Forest.append_nil]
    exact h
  | cons op ops ih =>
    simp only [ownCheckpoints, Bool.and_eq_true, Option.all_eq_true,
      List.contains_iff_mem] at hown
    have hop : ∀ c ∈ op.checkpoint?, Inner b c := fun c hc =>
      hissued c (hown.1 c hc)
    obtain ⟨x, hx, hadds⟩ := h.effect (apply_effect h.consistent.sound op) hop
    have hissued' : ∀ c ∈ (op.apply v).2.checkpoint?.toList ++ issued,
        Inner b c := by
      intro c hc
      rcases List.mem_append.mp hc with hc | hc
      · rw [eq_checkpoint_of_reply (Option.mem_toList.mp hc)]
        exact h.inner_checkpoint
      · exact hissued c hc
    obtain ⟨y, hy, hscat, hborn⟩ := ih hx hissued' hown.2
    refine ⟨x.append y, Forest.append_assoc fresh x y ▸ hy,
      hadds.scattered.append hscat, ?_⟩
    intro l hl
    rw [Forest.labels_append] at hl
    rcases List.mem_append.mp hl with hl | hl
    · exact hadds.born hl
    · exact (hborn l hl).cons

/-- Rolling back the transaction itself. -/
theorem rollback (h : Within b fresh v) (hb : b.Consistent) :
    (v.rollback b.checkpoint).forest = b.forest.append fresh ∧
      (v.rollback b.checkpoint).journal = b.journal := by
  obtain ⟨ms, hms⟩ := h.marks
  obtain ⟨es, hes, hback⟩ := h.entries
  have hk : v.journal.entries.length - b.checkpoint.mark = es.length := by
    simp [checkpoint, hes]
  have hmarks : v.journal.marks.drop
      (v.journal.marks.length - b.checkpoint.depth) =
      b.journal.marks := by
    have hsplit : v.journal.marks = (ms ++ [b.journal.entries.length]) ++
        b.journal.marks := by
      simp [hms, Tree.begin]
    have hlen : v.journal.marks.length - b.checkpoint.depth =
        (ms ++ [b.journal.entries.length]).length := by
      simp only [hsplit, checkpoint, List.length_append, Nat.add_sub_cancel]
    rw [hlen, hsplit, List.drop_left]
  have hentries : (if b.journal.marks.isEmpty then [] else b.journal.entries) =
      b.journal.entries := by
    split
    · next hm => exact (hb.idle (List.isEmpty_iff.mp hm)).symm
    · rfl
  constructor
  · simp only [Tree.rollback, Tree.close, unwind_eq, hk]
    rw [hes, List.take_left]
    exact hback
  · simp only [Tree.rollback, Tree.close, unwind_eq, hk, hmarks]
    rw [hes, List.drop_left, hentries]

end Within

/-! ## Opening, doing anything, rolling back -/

/-- **Rolling back is exact.** Let `t` be any tree that can come about, open
a transaction in it, do anything with checkpoints of one's own, and roll
back to give `u`. Every node of `t` is again as it was, the journal is the
one of `t`, and every node created in between is in `u` without parent and
children, with the kind and text it had right after the operation that
created it. Specification, §4.3. -/
theorem rollback_restores (kind : Kind) (events : List BuildEvent)
    (earlier ops : List Op)
    (hown : ownCheckpoints ops (Op.run (Tree.build kind events) earlier).begin
      [] = true) :
    let t := Op.run (Tree.build kind events) earlier
    let v := Op.run t.begin ops
    let u := v.rollback t.checkpoint
    (∀ n, n < t.count → SameNode t u n) ∧ u.journal = t.journal ∧
      u.count = v.count ∧
      ∀ n, t.count ≤ n → n < u.count →
        u.parent? n = none ∧ u.children n = [] ∧
        ∃ before op after, ops = before ++ op :: after ∧
          (Op.run t.begin before).count ≤ n ∧
            n < (op.apply (Op.run t.begin before)).1.count ∧
          u.kind? n = (op.apply (Op.run t.begin before)).1.kind? n ∧
          u.tokenText? n =
              (op.apply (Op.run t.begin before)).1.tokenText? n := by
  intro t v u
  have ht : t.Consistent := (consistent_build kind events).run earlier
  obtain ⟨x, hx, hscat, hborn⟩ := (Within.begin ht).run (by simp) hown
  obtain ⟨hforest, hjournal⟩ := hx.rollback ht
  have hu : u.Consistent := hx.consistent.apply (.rollback t.checkpoint)
  have hf : u.forest = t.forest.append x := hforest
  refine ⟨fun n hn => sameNode_of_append hf (ht.sound.contains_iff.mpr hn),
    hjournal, ?_, ?_⟩
  · simp [u, Tree.rollback, Tree.close, unwind_eq]
  · intro n hlo hhi
    have hnt : n ∉ t.forest.ids := fun hm =>
      Nat.not_lt.mpr hlo ((ht.sound.mem_ids n).mp hm)
    have hnx : n ∈ x.ids := by
      have hm := (hu.sound.mem_ids n).mpr hhi
      rw [hf, Forest.ids_append] at hm
      exact (List.mem_append.mp hm).resolve_left hnt
    obtain ⟨hparent, hchildren⟩ := alone_of_append hu.sound hf hscat hnt hnx
    refine ⟨hparent, hchildren, ?_⟩
    rw [← Forest.map_fst_labels, List.mem_map] at hnx
    obtain ⟨⟨m, k, y⟩, hl, rfl⟩ := hnx
    obtain ⟨before, op, after, hops, hb, ha, hlw⟩ := hborn _ hl
    have hw : (op.apply (Op.run t.begin before)).1.Sound :=
      ((ht.begin.run before).apply op).sound
    have hlu : (m, k, y) ∈ u.forest.labels := by
      rw [hf, Forest.labels_append]
      exact List.mem_append_right _ hl
    obtain ⟨hku, hyu⟩ := kind?_of_mem_labels hu.sound hlu
    obtain ⟨hkw, hyw⟩ := kind?_of_mem_labels hw hlw
    exact ⟨before, op, after, hops, hb, ha, hku.trans hkw.symm,
      hyu.trans hyw.symm⟩

/-- An outer transaction is open and has changed something; inside the one
rolled back, an inner one was committed and another, with a move that failed
halfway, was left open. -/
theorem rollback_restores_nested :
    let t :=
      Op.run (Tree.build .file [.start .property, .token .identifier "a"])
        [.begin, .newToken .whitespace " ", .insertBefore 2 3]
    let ops : List Op := [.begin, .replaceText 2 "b", .commit ⟨2, 1⟩,
      .begin, .moveAfter 3 3, .spaceAfter 2 "!", .detach 2]
    let u := (Op.run t.begin ops).rollback t.checkpoint
    ownCheckpoints ops t.begin [] = true ∧
      (Op.run t.begin ops).tokenText? 2 = some "b" ∧
      SameNode t u 2 ∧ u.journal = t.journal := by
  have h := rollback_restores .file [.start .property, .token .identifier "a"]
    [.begin, .newToken .whitespace " ", .insertBefore 2 3]
    [.begin, .replaceText 2 "b", .commit ⟨2, 1⟩, .begin, .moveAfter 3 3,
      .spaceAfter 2 "!", .detach 2]
    (by decide)
  exact ⟨by decide, by decide, h.1 2 (by decide), h.2.1⟩

end Tree

end TreeLint
