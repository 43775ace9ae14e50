import TreeLint.Proofs.Lint.Turn
import TreeLint.Tree.Builder
import Mathlib.Data.List.Nodup

/-!
# The children of a node while rules move them about

The children of a node are visited in a loop that looks them up anew every
time, because every visit may have changed them. `Walk.Loop` is that loop
written down round by round: which child was visited, and the walk before
and after. Whatever the rules do, the following holds of it
(`children_visited_once`).

No child is visited twice, wherever it is moved. A node that is among the
children in every round is visited, also if others jump over it. A node that
turns up while a child is visited is left alone if it stands before that
child and visited if it stands behind it, as long as it stays. And nobody is
ever called for a node that is not attached.

Specification, §4.3: insertions behind the cursor are not visited again,
removals ahead of it are not visited.
-/

namespace TreeLint

variable {σ : Type} {policy : Policy} {n x : NodeId} {p : Progress}
  {w w' : Walk σ}

/-! ## Progress -/

namespace Progress

theorem passed_iff : p.passed x = true ↔ x ∈ p.visited ∨ x ∈ p.skipped := by
  simp [passed]

/-- What is visited next is a child that was not passed. -/
theorem next?_eq_some {child : NodeId} {children : List NodeId}
    (h : p.next? children = some child) :
    child ∈ children ∧ p.passed child = false := by
  refine ⟨List.mem_of_find?_eq_some h, ?_⟩
  simpa using List.find?_some h

theorem passed_of_next?_eq_none {children : List NodeId}
    (h : p.next? children = none) (hx : x ∈ children) : p.passed x = true := by
  simpa using List.find?_eq_none.mp h x hx

/-- The progress after a child was visited. -/
def after (p : Progress) (child : NodeId) (still : Bool)
    (before children : List NodeId) : Progress :=
  ({ p with visited := p.visited ++ [child] } : Progress).catchUp child still
    before children

variable {child : NodeId} {still : Bool} {before children : List NodeId}

/-- Passed are afterwards, besides those that were, the child and whatever
turned up behind the walk. -/
theorem passed_after : (p.after child still before children).passed x = true ↔
    p.passed x = true ∨ x = child ∨
      x ∉ before ∧ x ∈ children.take
        (({ p with visited := p.visited ++ [child] } : Progress).behind child
          still before children) := by
  simp only [after, catchUp, passed_iff, List.mem_append, List.mem_singleton,
    List.mem_filter,
    Bool.not_eq_true', List.contains_eq_mem, decide_eq_false_iff_not]
  tauto

/-- If the child is still there, those before it lie behind the walk. -/
theorem behind_of_still :
    p.behind child true before children = children.idxOf child :=
  rfl

end Progress

/-! ## One round at a time -/

namespace Walk

variable {child : NodeId} {fuel : Nat}

/-- A visit, with fuel: the rules before the children, the children, the
rules after them. -/
theorem visit_succ (policy : Policy) (fuel : Nat) (n : NodeId)
    (w : Walk σ) :
    Walk.visit policy (fuel + 1) n w =
      ((Walk.visitChildren policy fuel n {}
        (w.dispatch policy .beforeChildren n)).map Prod.fst).map
          fun v => v.dispatch policy .afterChildren n := by
  simp only [Walk.visit]
  cases Walk.visitChildren policy fuel n {}
    (w.dispatch policy .beforeChildren n) <;> rfl

theorem visitChildren_detached (h : w.tree.isAttached n = false) :
    Walk.visitChildren policy (fuel + 1) n p w = some (w, p) := by
  simp [Walk.visitChildren, h]

theorem visitChildren_done (h : w.tree.isAttached n = true)
    (hnext : p.next? (w.tree.children n) = none) :
    Walk.visitChildren policy (fuel + 1) n p w = some (w, p) := by
  simp [Walk.visitChildren, h, hnext]

/-- **One round of the loop** (specification, §4.3): the next child is
visited, and the list of children is read anew. -/
theorem visitChildren_next (h : w.tree.isAttached n = true)
    (hnext : p.next? (w.tree.children n) = some child) :
    Walk.visitChildren policy (fuel + 1) n p w =
      (Walk.visit policy fuel child w).bind fun v =>
        if v.tree.isAttached n then
          Walk.visitChildren policy fuel n
            (p.after child (v.tree.parent? child == some n)
              (w.tree.children n) (v.tree.children n)) v
        else some (v, { p with visited := p.visited ++ [child] }) := by
  simp only [Walk.visitChildren, h, hnext, Bool.not_true,
    Bool.false_eq_true, if_false]
  cases Walk.visit policy fuel child w with
  | none => rfl
  | some v => cases hv : v.tree.isAttached n <;> simp [hv, Progress.after]

/-- One more unit of fuel changes nothing about a visit that ends; by
induction on the fuel, which visits and loops share. -/
theorem visit_succ_of_visit (policy : Policy) (fuel : Nat) :
    (∀ n (w w' : Walk σ), Walk.visit policy fuel n w = some w' →
      Walk.visit policy (fuel + 1) n w = some w') ∧
    ∀ n p (w : Walk σ) q, Walk.visitChildren policy fuel n p w = some q →
      Walk.visitChildren policy (fuel + 1) n p w = some q := by
  -- Visits and loops over children use each other, so both are shown
  -- together, by induction on the fuel.
  induction fuel with
  | zero =>
    exact ⟨fun n w w' h => by simp [Walk.visit] at h,
      fun n p w q h => by simp [Walk.visitChildren] at h⟩
  | succ fuel ih =>
    constructor
    · intro n w w' h
      rw [visit_succ] at h ⊢
      obtain ⟨v, hv, rfl⟩ := Option.map_eq_some_iff.mp h
      obtain ⟨q, hq, rfl⟩ := Option.map_eq_some_iff.mp hv
      rw [ih.2 n {} _ q hq]
      rfl
    · intro n p w q h
      cases hn : w.tree.isAttached n with
      | false => rwa [visitChildren_detached hn] at h ⊢
      | true =>
        cases hnext : p.next? (w.tree.children n) with
        | none => rwa [visitChildren_done hn hnext] at h ⊢
        | some child =>
          rw [visitChildren_next hn hnext] at h ⊢
          obtain ⟨v, hvisit, hrest⟩ := Option.bind_eq_some_iff.mp h
          rw [ih.1 child w v hvisit, Option.bind_some]
          split at hrest
          · next hv => rw [if_pos hv, ih.2 _ _ _ _ hrest]
          · next hv => rw [if_neg hv, hrest]

theorem visit_mono {fuel' : Nat} (h : Walk.visit policy fuel n w = some w')
    (hle : fuel ≤ fuel') : Walk.visit policy fuel' n w = some w' := by
  induction hle with
  | refl => exact h
  | step _ ih => exact (visit_succ_of_visit policy _).1 n w w' ih

theorem visitChildren_mono {fuel' : Nat} {q : Walk σ × Progress}
    (h : Walk.visitChildren policy fuel n p w = some q)
    (hle : fuel ≤ fuel') :
    Walk.visitChildren policy fuel' n p w = some q := by
  induction hle with
  | refl => exact h
  | step _ ih => exact (visit_succ_of_visit policy _).2 n p w q ih

theorem run_mono {fuel' : Nat} (h : Walk.run policy fuel w = some w')
    (hle : fuel ≤ fuel') : Walk.run policy fuel' w = some w' := by
  obtain ⟨v, hv, rfl⟩ := Option.map_eq_some_iff.mp h
  rw [Walk.run, visit_mono hv hle]
  rfl

end Walk

/-! ## The loop -/

/-- A child that was visited, with the walk before and after. -/
structure ChildVisit (σ : Type) where
  child : NodeId
  start : Walk σ
  stop : Walk σ

namespace ChildVisit

/-- The children of the parent when the visit starts, among which the child
was chosen. -/
def before (n : NodeId) (v : ChildVisit σ) : List NodeId :=
  v.start.tree.children n

/-- The children of the parent when the visit is over. -/
def after (n : NodeId) (v : ChildVisit σ) : List NodeId :=
  v.stop.tree.children n

/-- Whether the child is a child of the same parent when its visit is over. -/
def stays (n : NodeId) (v : ChildVisit σ) : Bool :=
  v.stop.tree.parent? v.child == some n

end ChildVisit

/-- The loop over the children of `n`, from some progress and walk on: the
visits it makes, and the walk it ends with. It ends when `n` is not attached
any more, or when no child is left to be visited. -/
inductive Walk.Loop (policy : Policy) (n : NodeId) :
    Progress → Walk σ → List (ChildVisit σ) → Walk σ → Prop
  | detached {p : Progress} {w : Walk σ} (h : w.tree.isAttached n = false) :
    Loop policy n p w [] w
  | done {p : Progress} {w : Walk σ} (h : w.tree.isAttached n = true)
      (hnext : p.next? (w.tree.children n) = none) : Loop policy n p w [] w
  | round {p : Progress} {v : ChildVisit σ} {vs : List (ChildVisit σ)}
      {w' : Walk σ} {fuel : Nat} (h : v.start.tree.isAttached n = true)
      (hnext : p.next? (v.before n) = some v.child)
      (hvisit : Walk.visit policy fuel v.child v.start = some v.stop)
      (rest : Loop policy n (p.after v.child (v.stays n) (v.before n)
        (v.after n)) v.stop vs w') : Loop policy n p v.start (v :: vs) w'

/-- Every call that returns is such a loop, and keeps a record of the
children visited. -/
theorem Walk.loop_of_visitChildren {fuel : Nat} {p' : Progress}
    (h : Walk.visitChildren policy fuel n p w = some (w', p')) :
    ∃ vs, Walk.Loop policy n p w vs w' ∧
      p'.visited = p.visited ++ vs.map ChildVisit.child := by
  -- One round of the loop for each step of the recursion.
  induction fuel generalizing p w with
  | zero => simp [Walk.visitChildren] at h
  | succ fuel ih =>
    simp only [Walk.visitChildren] at h
    split at h
    · next hdetached =>
      cases h
      exact ⟨[], .detached (by simpa using hdetached), by simp⟩
    · next hattached =>
      have hattached : w.tree.isAttached n = true := by simpa using hattached
      split at h
      · next hnext =>
        cases h
        exact ⟨[], .done hattached hnext, by simp⟩
      · next child hnext =>
        split at h
        · cases h
        · next stop hvisit =>
          have hround := @Walk.Loop.round σ policy n p ⟨child, w, stop⟩
          split at h
          · next hleft =>
            cases h
            refine ⟨[⟨child, w, w'⟩],
              hround hattached hnext hvisit (.detached ?_), by simp⟩
            simpa using hleft
          · obtain ⟨vs, hloop, hvisited⟩ := ih h
            refine ⟨⟨child, w, stop⟩ :: vs,
              hround hattached hnext hvisit hloop, ?_⟩
            simp [hvisited, Progress.catchUp]

namespace Walk.Loop

variable {vs pre post : List (ChildVisit σ)} {v : ChildVisit σ}

theorem child_mem_before (h : Walk.Loop policy n p w vs w') (hv : v ∈ vs) :
    v.child ∈ v.before n := by
  induction h with
  | detached | done => cases hv
  | round _ hnext _ _ ih =>
    rcases List.mem_cons.mp hv with rfl | hv
    · exact (Progress.next?_eq_some hnext).1
    · exact ih hv

/-- Whatever was passed is not visited any more. -/
theorem not_passed (h : Walk.Loop policy n p w vs w')
    (hx : x ∈ vs.map ChildVisit.child) : p.passed x = false := by
  induction h with
  | detached | done => cases hx
  | round _ hnext _ _ ih =>
    rcases List.mem_cons.mp hx with rfl | hx
    · exact (Progress.next?_eq_some hnext).2
    · have hlater := ih hx
      rw [Bool.eq_false_iff, ne_eq, Progress.passed_after] at hlater
      rw [Bool.eq_false_iff]
      exact fun hpassed => hlater (Or.inl hpassed)

/-- No child is visited twice. -/
theorem nodup (h : Walk.Loop policy n p w vs w') :
    (vs.map ChildVisit.child).Nodup := by
  induction h with
  | detached | done => exact List.nodup_nil
  | round _ _ _ rest ih =>
    refine List.nodup_cons.mpr ⟨fun hagain => ?_, ih⟩
    have hpassed := rest.not_passed hagain
    rw [Bool.eq_false_iff, ne_eq, Progress.passed_after] at hpassed
    exact hpassed (Or.inr (Or.inl rfl))

/-- A node that is there in every round is visited before the loop ends by
itself. It is never taken for one that turned up, so the only way for it to
be passed is to be visited. -/
theorem mem_of_stays (h : Walk.Loop policy n p w vs w')
    (hend : w'.tree.isAttached n = true) (hnew : p.passed x = false)
    (hstays : ∀ v ∈ vs, x ∈ v.before n) (hlast : x ∈ w'.tree.children n) :
    x ∈ vs.map ChildVisit.child := by
  induction h with
  | detached hdetached => simp [hdetached] at hend
  | done _ hnext => simp [Progress.passed_of_next?_eq_none hnext hlast] at hnew
  | @round p v vs w' fuel _ _ _ _ ih =>
    obtain ⟨hbefore, hstays⟩ := List.forall_mem_cons.mp hstays
    by_cases hx : x = v.child
    · simp [hx]
    · refine List.mem_cons_of_mem _ (ih hend ?_ hstays hlast)
      rw [Bool.eq_false_iff, ne_eq, Progress.passed_after]
      rintro (hpassed | heq | ⟨hout, -⟩)
      · simp [hpassed] at hnew
      · exact hx heq
      · exact hout hbefore

/-- The first of some rounds starts where the loop does. -/
theorem exists_start (h : Walk.Loop policy n p w (pre ++ v :: post) w') :
    ∃ u ∈ pre ++ [v], u.start = w := by
  cases pre with
  | nil =>
    cases h
    exact ⟨v, by simp, rfl⟩
  | cons u pre =>
    cases h
    exact ⟨u, by simp, rfl⟩

/-- In the middle of a loop it goes on from the progress so far. Passed by
then is only what was passed at the start or was a child at the start of one
of the rounds: what turns up in a round is a child when the next one
starts. -/
theorem split (h : Walk.Loop policy n p w (pre ++ v :: post) w') :
    ∃ q : Progress, Walk.Loop policy n
      (q.after v.child (v.stays n) (v.before n) (v.after n)) v.stop post w' ∧
      ∀ x, q.passed x = true → p.passed x = true ∨ ∃ u ∈ pre ++ [v],
        x ∈ u.before n := by
  induction pre generalizing p w with
  | nil =>
    cases h with
    | round _ _ _ rest => exact ⟨p, rest, fun x hx => Or.inl hx⟩
  | cons u pre ih =>
    cases h with
    | round _ hnext _ rest =>
      obtain ⟨q, hloop, hq⟩ := ih rest
      refine ⟨q, hloop, fun x hx => ?_⟩
      rcases hq x hx with hpassed | ⟨u', hu', hmem⟩
      · rcases Progress.passed_after.mp hpassed with hp | rfl | ⟨-, hbehind⟩
        · exact Or.inl hp
        · exact Or.inr ⟨u, by simp, (Progress.next?_eq_some hnext).1⟩
        · obtain ⟨u', hu', hstart⟩ := @exists_start _ _ _ _ _ _ pre post v rest
          refine Or.inr ⟨u', List.mem_cons_of_mem _ hu', ?_⟩
          rw [ChildVisit.before, hstart]
          exact List.mem_of_mem_take hbehind
      · exact Or.inr ⟨u', List.mem_cons_of_mem _ hu', hmem⟩

/-- A node that turns up before the child just visited is never visited. -/
theorem not_mem_of_behind (h : Walk.Loop policy n p w (pre ++ v :: post) w')
    (hnew : ∀ u ∈ pre ++ [v], x ∉ u.before n) (hstill : v.stays n = true)
    (hx : x ∈ v.after n)
    (hbehind : (v.after n).idxOf x < (v.after n).idxOf v.child) :
    x ∉ (pre ++ v :: post).map ChildVisit.child := by
  -- Up to now the node was not among the children, so it was not visited.
  have hnow : ∀ u ∈ pre ++ [v], x ≠ u.child := by
    rintro u hu rfl
    refine hnew u hu (h.child_mem_before ?_)
    rcases List.mem_append.mp hu with hu | hu
    · exact List.mem_append_left _ hu
    · rw [List.mem_singleton.mp hu]
      simp
  -- From now on it counts as passed, as all that turn up behind the child
  -- do.
  have hlater : x ∉ post.map ChildVisit.child := by
    obtain ⟨q, hloop, -⟩ := h.split
    intro hmem
    have hpassed := hloop.not_passed hmem
    rw [Bool.eq_false_iff, ne_eq, Progress.passed_after] at hpassed
    refine hpassed (Or.inr (Or.inr ⟨hnew v (by simp), ?_⟩))
    rw [hstill, Progress.behind_of_still, List.mem_take_iff_idxOf_lt hx]
    exact hbehind
  intro hmem
  obtain ⟨u, hu, rfl⟩ := List.mem_map.mp hmem
  rcases List.mem_append.mp hu with hu | hu
  · exact hnow u (List.mem_append_left _ hu) rfl
  · rcases List.mem_cons.mp hu with rfl | hu
    · exact hnow u (by simp) rfl
    · exact hlater (List.mem_map_of_mem hu)

/-- A node that turns up behind the child just visited, and stays, is
visited. -/
theorem mem_of_ahead (h : Walk.Loop policy n {} w (pre ++ v :: post) w')
    (hend : w'.tree.isAttached n = true)
    (hnew : ∀ u ∈ pre ++ [v], x ∉ u.before n) (hstill : v.stays n = true)
    (hx : x ∈ v.after n)
    (hahead : (v.after n).idxOf v.child < (v.after n).idxOf x)
    (hstays : ∀ u ∈ post, x ∈ u.before n) (hlast : x ∈ w'.tree.children n) :
    x ∈ (pre ++ v :: post).map ChildVisit.child := by
  obtain ⟨q, hloop, hq⟩ := h.split
  have hpost : x ∈ post.map ChildVisit.child := by
    refine hloop.mem_of_stays hend ?_ hstays hlast
    rw [Bool.eq_false_iff, ne_eq, Progress.passed_after]
    rintro (hpassed | rfl | ⟨-, hbehind⟩)
    · rcases hq x hpassed with hnone | ⟨u, hu, hmem⟩
      · simp [Progress.passed] at hnone
      · exact hnew u hu hmem
    · exact Nat.lt_irrefl _ hahead
    · rw [hstill, Progress.behind_of_still, List.mem_take_iff_idxOf_lt hx]
        at hbehind
      omega
  rw [List.map_append, List.map_cons]
  exact List.mem_append_right _ (List.mem_cons_of_mem _ hpost)

end Walk.Loop

/-- What holds of the children that a loop visits, whatever was done to the
children meanwhile. -/
structure VisitedOnce (n : NodeId) (vs : List (ChildVisit σ))
    (w' : Walk σ) : Prop where
  /-- None is visited twice. -/
  nodup : (vs.map ChildVisit.child).Nodup
  /-- One that is there in every round, the last look at the children
  included, is visited. -/
  stays : w'.tree.isAttached n = true →
    ∀ x, (∀ v ∈ vs, x ∈ v.before n) → x ∈ w'.tree.children n →
      (vs.map ChildVisit.child).count x = 1
  /-- One that turns up before the child just visited is not visited. -/
  behind : ∀ pre v post, vs = pre ++ v :: post → v.stays n = true →
    ∀ x, (∀ u ∈ pre ++ [v], x ∉ u.before n) → x ∈ v.after n →
      (v.after n).idxOf x < (v.after n).idxOf v.child →
        x ∉ vs.map ChildVisit.child
  /-- One that turns up behind it, and stays, is visited. -/
  ahead : w'.tree.isAttached n = true → ∀ pre v post, vs = pre ++ v :: post →
    v.stays n = true →
    ∀ x, (∀ u ∈ pre ++ [v], x ∉ u.before n) → x ∈ v.after n →
      (v.after n).idxOf v.child < (v.after n).idxOf x →
        (∀ u ∈ post, x ∈ u.before n) →
      x ∈ w'.tree.children n → (vs.map ChildVisit.child).count x = 1

/-- **Which children are visited** (specification, §4.3): none twice, each
that stays, none that turns up behind the one just visited, and each that
turns up ahead of it and stays. -/
theorem Walk.Loop.visitedOnce {vs : List (ChildVisit σ)}
    (h : Walk.Loop policy n {} w vs w') :
    VisitedOnce n vs w' where
  nodup := h.nodup
  stays hend x hstays hlast :=
    List.count_eq_one_of_mem h.nodup (h.mem_of_stays hend rfl hstays hlast)
  behind pre v post hvs hstill x hnew hx hbehind := by
    subst hvs
    exact h.not_mem_of_behind hnew hstill hx hbehind
  ahead hend pre v post hvs hstill x hnew hx hahead hstays hlast := by
    subst hvs
    exact List.count_eq_one_of_mem h.nodup
      (h.mem_of_ahead hend hnew hstill hx hahead hstays hlast)

/-! ## Calls -/

/-- The walk after a call of the rule at place `i`. -/
def Walk.called (policy : Policy) (w : Walk σ) (i : Nat) (r : ActiveRule σ)
    (phase : Phase) (node : Option NodeId) : Walk σ where
  rules := w.rules.set i (r.invoke policy phase node w.scene).1
  scene := (r.invoke policy phase node w.scene).2
  calls := w.calls ++ [⟨r.id, phase, node⟩]

/-- From `w` on there were only calls of rules that had not crashed, before
or after the children of a node that was attached at that moment, or of no
node after the last one. -/
inductive Walk.ByCalls (policy : Policy) (w : Walk σ) : Walk σ → Prop
  | start : ByCalls policy w w
  | node {v : Walk σ} {i : Nat} {r : ActiveRule σ} {phase : Phase}
      {n : NodeId} (h : ByCalls policy w v) (hr : v.rules[i]? = some r)
      (hf : r.failed = false)
      (hphase : phase = .beforeChildren ∨ phase = .afterChildren)
      (hn : v.tree.isAttached n = true) :
      ByCalls policy w (v.called policy i r phase (some n))
  | last {v : Walk σ} {i : Nat} {r : ActiveRule σ} (h : ByCalls policy w v)
      (hr : v.rules[i]? = some r) (hf : r.failed = false) :
      ByCalls policy w (v.called policy i r .afterLastNode none)

namespace Walk

variable {v : Walk σ}

/-- **Step.** A turn is a call, or changes nothing. -/
theorem ByCalls.turn (h : ByCalls policy w v) {t : Turn}
    (ht : (t.phase = .beforeChildren ∨ t.phase = .afterChildren) ∧
      t.node.isSome ∨ t.phase = .afterLastNode ∧ t.node = none) :
    ByCalls policy w (v.turn policy t) := by
  obtain ⟨i, phase, node⟩ := t
  rcases turn_cases policy v ⟨i, phase, node⟩ with hturn | ⟨r, hr,
    hf, hn, hturn⟩
  · rwa [hturn]
  · rw [hturn]
    rcases ht with ⟨hphase, hnode⟩ | ⟨hphase, hnode⟩
    · obtain ⟨n, hn'⟩ := Option.isSome_iff_exists.mp hnode
      dsimp only at hphase hn hn'
      subst hn'
      exact h.node hr hf hphase (by simpa using hn)
    · dsimp only at hphase hnode
      subst hphase hnode
      exact h.last hr hf

theorem ByCalls.turns (h : ByCalls policy w v) {ts : List Turn}
    (hts : ∀ t ∈ ts, (t.phase = .beforeChildren ∨ t.phase = .afterChildren) ∧
      t.node.isSome ∨ t.phase = .afterLastNode ∧ t.node = none) :
    ByCalls policy w (v.turns policy ts) := by
  induction ts generalizing v with
  | nil => exact h
  | cons t ts ih =>
    obtain ⟨ht, hts⟩ := List.forall_mem_cons.mp hts
    exact ih (h.turn ht) hts

theorem ByCalls.rounds (h : ByCalls policy w v) {v' : Walk σ}
    (hv : Rounds policy v v') :
    ByCalls policy w v' := by
  obtain ⟨occasions, hoccasions, rfl⟩ := hv
  refine h.turns fun t ht => ?_
  simp only [Turn.rounds, List.mem_flatMap, List.mem_map] at ht
  obtain ⟨-, ⟨o, ho, rfl⟩, i, -, rfl⟩ := ht
  exact Or.inl ⟨hoccasions o ho, rfl⟩

/-- **Run.** Everything a walk does it does by calling rules. -/
theorem byCalls_run {fuel : Nat} (h : Walk.run policy fuel w = some w') :
    ByCalls policy w w' := by
  obtain ⟨v, hrounds, rfl⟩ := run_eq_last h
  refine (ByCalls.start.rounds hrounds).turns fun t ht => ?_
  simp only [Turn.rounds, List.mem_flatMap, List.mem_singleton, List.mem_map]
    at ht
  obtain ⟨-, rfl, i, -, rfl⟩ := ht
  exact Or.inr ⟨rfl, rfl⟩

end Walk

/-- **No loss and no duplication while the children change.** Whatever the
rules do, every call that visits the children of a node and returns is a
loop that keeps a record of whom it visited, in which everybody is visited
once who is there to be visited. And in it as in a whole walk, rules are
only ever called for nodes that are attached. Specification, §4.3. -/
theorem children_visited_once (policy : Policy) (fuel : Nat) (n : NodeId)
    (w w' : Walk σ) (p : Progress)
    (h : Walk.visitChildren policy fuel n {} w = some (w', p)) :
    (∃ vs, Walk.Loop policy n {} w vs w' ∧ p.visited = vs.map ChildVisit.child ∧
      VisitedOnce n vs w') ∧
      Walk.ByCalls policy w w' ∧
      ∀ fuel (start final : Walk σ), Walk.run policy fuel start = some final →
        Walk.ByCalls policy start final := by
  refine ⟨?_, Walk.ByCalls.start.rounds
    ((Walk.rounds_visit policy fuel).2 n {} w w' p h),
    fun _ _ _ hrun => Walk.byCalls_run hrun⟩
  obtain ⟨vs, hloop, hvisited⟩ := Walk.loop_of_visitChildren h
  exact ⟨vs, hloop, by simpa using hvisited, hloop.visitedOnce⟩

/-- A rule that, called for the first child, puts a new token before and
another behind it, and pulls the last child to the front. -/
def shuffler : ActiveRule Unit where
  id := "shuffler"
  visitor :=
    { memory := ()
      before := fun n _ =>
        if n = 1 then
          .perform (.newToken .identifier "x") fun _ =>
              .perform (.insertBefore 1 4) fun _ =>
            .perform (.newToken .identifier "y") fun _ =>
                .perform (.insertAfter 1 5) fun _ =>
              .perform (.moveBefore 3 4) fun _ => .finish ()
        else .finish () }

/-- Of the children that the rule above leaves, in the order `3 4 1 5 2`,
only the token `4` is not visited. -/
theorem children_visited_once_shuffled :
    let tokens := ["a", "b", "c"].map (BuildEvent.token .identifier)
    let start : Walk Unit :=
      { rules := [shuffler], scene := { tree := Tree.build .file tokens } }
    ∃ final p, Walk.visitChildren Policy.all 9 Tree.root {} start =
      some (final, p) ∧
      final.tree.children Tree.root = [3, 4, 1, 5, 2] ∧
        p.visited = [1, 3, 5, 2] ∧
      (∃ vs, Walk.Loop Policy.all Tree.root {} start vs final ∧
        p.visited = vs.map ChildVisit.child ∧
        VisitedOnce Tree.root vs final) ∧
            Walk.ByCalls Policy.all start final := by
  intro tokens start
  have hrun : (Walk.visitChildren Policy.all 9 Tree.root {} start).map
      (fun r => (r.1.tree.children Tree.root, r.2.visited)) =
          some ([3, 4, 1, 5, 2], [1, 3, 5, 2]) := by
    decide
  obtain ⟨⟨final, p⟩, h, hresult⟩ := Option.map_eq_some_iff.mp hrun
  obtain ⟨hchildren, hvisited⟩ := Prod.mk.inj hresult
  have hmain := children_visited_once Policy.all 9 Tree.root start final p h
  exact ⟨final, p, h, hchildren, hvisited, hmain.1, hmain.2.1⟩

end TreeLint
