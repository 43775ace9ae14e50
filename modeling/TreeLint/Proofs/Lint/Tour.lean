import TreeLint.Proofs.Lint.Children
import TreeLint.Proofs.Lint.Isolation
import TreeLint.Proofs.Tree.Document
import Mathlib.Data.List.Count

/-!
# Walks over a tree that stays as it is

While nobody changes the tree of the file, a walk over it is the obvious
recursion: before a node, its children in order, after it (`Forest.tour`).
`Course.visit` says so, and how much fuel it takes, for walks that may also
go astray: either the walk follows the tour to the end, or both have left
the course, and then for good. A walk of rules that change nothing never
leaves it, which gives `run_eq_tour`.

Specification, §4.3: depth first, each rule before and after the children,
and once more after the root.
-/

namespace TreeLint

variable {σ : Type} {policy : Policy}

namespace Forest

variable {s r : Forest} {i : NodeId}

/-- The occasions of a walk over a forest that nobody changes. -/
def tour : Forest → List (Phase × NodeId)
  | .nil => []
  | .token i _ _ r => (.beforeChildren, i) :: (.afterChildren, i) :: r.tour
  | .node i _ c r =>
    (.beforeChildren, i) :: (c.tour ++ (.afterChildren, i) :: r.tour)

/-- The fuel for visiting the trees of a forest one after the other. -/
def fuelFor : Forest → Nat
  | .nil => 1
  | .token _ _ _ r => 1 + max 2 r.fuelFor
  | .node _ _ c r => 1 + max (1 + c.fuelFor) r.fuelFor

/-- A forest is empty or has a first tree. -/
theorem nil_or_append (f : Forest) :
    f = .nil ∨ ∃ (i : NodeId) (s r : Forest), s.roots = [i] ∧
      f = s.append r := by
  cases f with
  | nil => exact Or.inl rfl
  | token i k x r => exact Or.inr ⟨i, .token i k x .nil, r, rfl, rfl⟩
  | node i k c r => exact Or.inr ⟨i, .node i k c .nil, r, rfl, rfl⟩

theorem tour_append (f g : Forest) : (f.append g).tour = f.tour ++ g.tour := by
  induction f with
  | nil => rfl
  | token i k x r ih => simp [append, tour, ih]
  | node i k c r ihc ihr => simp [append, tour, ihr]

/-- A tour of a tree: its root before, all below it, its root after. -/
theorem tour_tree (h : s.roots = [i]) :
    s.tour = (.beforeChildren, i) ::
      (s.rootChildren.tour ++ [(.afterChildren, i)]) := by
  rcases eq_of_roots_eq_singleton h with ⟨k, x, rfl⟩ | ⟨k, c, rfl⟩ <;> rfl

/-- The fuel for a tree and the trees behind it: the deeper of the two, and
one more. -/
theorem fuelFor_tree_append (h : s.roots = [i]) :
    (s.append r).fuelFor = 1 + max (1 + s.rootChildren.fuelFor) r.fuelFor := by
  rcases eq_of_roots_eq_singleton h with ⟨k, x, rfl⟩ | ⟨k, c, rfl⟩ <;> rfl

/-- Twice the number of nodes is enough. -/
theorem fuelFor_le (f : Forest) : f.fuelFor ≤ 2 * f.ids.length + 1 := by
  induction f with
  | nil => simp [fuelFor, ids]
  | token i k x r ih =>
    simp only [fuelFor, ids, List.length_cons]
    omega
  | node i k c r ihc ihr =>
    simp only [fuelFor, ids, List.length_cons, List.length_append]
    omega

theorem length_ids_tree (h : s.roots = [i]) :
    s.ids.length = s.rootChildren.ids.length + 1 := by
  rcases eq_of_roots_eq_singleton h with ⟨k, x, rfl⟩ | ⟨k, c, rfl⟩ <;>
    simp [ids, rootChildren]

/-- A walk comes to each node twice. -/
theorem count_tour {phase : Phase}
    (hphase : phase = .beforeChildren ∨ phase = .afterChildren) (n : NodeId)
    (f : Forest) : f.tour.count (phase, n) = f.ids.count n := by
  induction f with
  | nil => rfl
  | token i k x r ih =>
    rcases hphase with rfl | rfl <;> simp [tour, ids, List.count_cons, ih]
  | node i k c r ihc ihr =>
    rcases hphase with rfl | rfl <;>
      simp [tour, ids, List.count_cons, List.count_append, ihc, ihr,
        Nat.add_assoc]

/-- A tour visits nodes of the forest. -/
theorem mem_ids_of_mem_tour {f : Forest} {o : Phase × NodeId}
    (h : o ∈ f.tour) : o.2 ∈ f.ids := by
  induction f with
  | nil => cases h
  | token i k x r ih =>
    simp only [tour, List.mem_cons] at h
    rcases h with rfl | rfl | h
    · simp [ids]
    · simp [ids]
    · exact List.mem_cons_of_mem _ (ih h)
  | node i k c r ihc ihr =>
    simp only [tour, List.mem_cons, List.mem_append] at h
    rcases h with rfl | h | rfl | h
    · simp [ids]
    · exact List.mem_cons_of_mem _ (List.mem_append_left _ (ihc h))
    · simp [ids]
    · exact List.mem_cons_of_mem _ (List.mem_append_right _ (ihr h))

/-- A tree among those below a node is what is found at its root. -/
theorem subtree?_of_offspring {f done : Forest} {n : NodeId} (hf : f.ids.Nodup)
    (h : f.offspring n = done.append (s.append r)) (hs : s.roots = [i]) :
    f.subtree? i = some s := by
  have hnodup := nodup_offspring n hf
  have hi : i ∈ s.ids := mem_ids_of_mem_roots (by simp [hs])
  rw [h, ids_append, ids_append, List.nodup_append] at hnodup
  have hdone : done.subtree? i = none := by
    rw [subtree?_eq_none_iff]
    exact fun hmem => hnodup.2.2 i hmem i (List.mem_append_left _ hi) rfl
  rw [← subtree?_offspring hf (p := n) (by simp [h, hi]), h, subtree?_append,
    hdone, subtree?_append,
    subtree?_of_roots_eq hs]
  rfl

end Forest

/-! ## Visiting what stays -/

theorem Progress.after_same (p : Progress) (child : NodeId) (still : Bool)
    (children : List NodeId) :
    p.after child still children children =
      { p with visited := p.visited ++ [child] } := by
  simp only [Progress.after, Progress.catchUp, Progress.mk.injEq, true_and]
  rw [List.filter_eq_nil_iff.mpr, List.append_nil]
  intro c hc
  simpa using List.mem_of_mem_take hc

/-- If those before it were visited and it was not, a child is next. -/
theorem Progress.next?_append {p : Progress} {before after : List NodeId}
    {child : NodeId} (hvisited : p.visited = before) (hskipped : p.skipped = [])
    (hchild : child ∉ before) :
    p.next? (before ++ child :: after) = some child := by
  have hpassed : ∀ c ∈ before, p.passed c = true :=
    fun c hc => by simp [Progress.passed, hvisited, hc]
  have hnot : p.passed child = false := by
    simp [Progress.passed, hvisited, hskipped, hchild]
  rw [Progress.next?, List.find?_append,
    List.find?_eq_none.mpr (by simpa using hpassed), Option.none_or,
    List.find?_cons_of_pos (by simp [hnot])]

/-- A course over a file `D`: while a walk is on it the tree of the file is
`D`; a turn keeps it on the course or leads it astray, for good. -/
structure Course (policy : Policy) (D : Forest)
    (steady astray : Walk σ → Prop) : Prop where
  sound : ∀ {w}, steady w → w.tree.Sound
  document : ∀ {w}, steady w → w.tree.document = D
  turn : ∀ {w} t, steady w → steady (w.turn policy t) ∨ astray (w.turn policy t)
  lost : ∀ {w} t, astray w → astray (w.turn policy t)

/-- A visit that follows its tour to the end `v`, if it has enough fuel, or
goes astray as the tour does. -/
structure Follows (astray : Walk σ → Prop) (visit : Option (Walk σ))
    (enough : Prop) [Decidable enough] (v : Walk σ) : Prop where
  straight : ¬astray v → visit = if enough then some v else none
  lost : astray v → ∀ w', visit = some w' → astray w'

namespace Course

variable {D : Forest} {steady astray : Walk σ → Prop} {w w' : Walk σ}
  {n : NodeId}

theorem lost_turns (c : Course policy D steady astray) (h : astray w)
    (ts : List Turn) :
    astray (w.turns policy ts) :=
  Walk.turns_induction (P := astray) (fun _ t => c.lost t) h ts

theorem lost_rounds (c : Course policy D steady astray) (h : astray w)
    (hr : Walk.Rounds policy w w') : astray w' := by
  obtain ⟨os, -, rfl⟩ := hr
  exact c.lost_turns h _

theorem turns (c : Course policy D steady astray) (h : steady w)
    (ts : List Turn) :
    steady (w.turns policy ts) ∨ astray (w.turns policy ts) :=
  Walk.turns_induction (P := fun v => steady v ∨ astray v)
    (fun _ t hv => hv.elim (c.turn t) fun hlost => Or.inr (c.lost t hlost))
      (Or.inl h) ts

theorem isAttached (c : Course policy D steady astray) (h : steady w)
    (hn : n ∈ D.ids) :
    w.tree.isAttached n = true :=
  (c.sound h).mem_document_iff.mp (c.document h ▸ hn)

theorem children (c : Course policy D steady astray) (h : steady w)
    (hn : n ∈ D.ids) :
    w.tree.children n = (D.offspring n).roots := by
  have hroots := (c.sound h).offspring_document (p := n) (c.document h ▸ hn)
  rw [← hroots, c.document h]

theorem nodup (c : Course policy D steady astray)
    (h : steady w) : D.ids.Nodup :=
  c.document h ▸ (c.sound h).nodup_document

/-- With this fuel, visits of nodes follow their tours. -/
def VisitsFollow (policy : Policy) (D : Forest) (steady astray : Walk σ → Prop)
    (fuel : Nat) : Prop :=
  ∀ n s w, steady w → D.subtree? n = some s →
    Follows astray (Walk.visit policy fuel n w) (1 + s.rootChildren.fuelFor ≤
      fuel) (w.attend policy s.tour)

/-- With this fuel, loops over children follow the tours of those that are
still to come: of the trees below a node, the children in `done` were
visited and those in `g` were not. -/
def LoopsFollow (policy : Policy) (D : Forest) (steady astray : Walk σ → Prop)
    (fuel : Nat) : Prop :=
  ∀ n p w (done g : Forest), steady w → n ∈ D.ids →
    D.offspring n = done.append g → p.visited = done.roots →
    p.skipped = [] →
    Follows astray ((Walk.visitChildren policy fuel n p w).map Prod.fst)
      (g.fuelFor ≤ fuel)
      (w.attend policy g.tour)

/-- **Visits follow the tour,** if loops below them do. -/
theorem visitsFollow_succ (c : Course policy D steady astray) {fuel : Nat}
    (hloops : LoopsFollow policy D steady astray fuel) :
    VisitsFollow policy D steady astray (fuel + 1) := by
  -- Either the walk is on course through the whole visit, or it goes astray
  -- somewhere in it and stays so.
  intro n s w hw hs
  have hoffspring : D.offspring n = Forest.nil.append s.rootChildren := by
    rw [Forest.offspring, hs]
    rfl
  have hn := Forest.mem_of_subtree? hs
  let w₁ := w.dispatch policy .beforeChildren n
  let w₂ := w₁.attend policy s.rootChildren.tour
  have hend : w.attend policy s.tour = w₂.dispatch policy .afterChildren n := by
    rw [Forest.tour_tree (Forest.roots_subtree? hs), Walk.attend_cons,
      Walk.attend_append, Walk.attend_cons]
    rfl
  have hafter : Walk.Rounds policy w₂ (w₂.dispatch policy .afterChildren n) :=
    Walk.rounds_dispatch (.inr rfl) n w₂
  have hw₁ : steady w₁ ∨ astray w₁ := by
    have := c.turns hw (Turn.rounds w.rules.length [(.beforeChildren, some n)])
    rwa [← Walk.dispatch_eq_turns] at this
  rw [Walk.visit_succ, hend]
  rcases hw₁ with hw₁ | hw₁
  · have hkids := hloops n {} w₁ .nil s.rootChildren hw₁ hn hoffspring rfl rfl
    refine ⟨fun hstraight => ?_, fun hlost w' hw' => ?_⟩
    · have hw₂ : ¬astray w₂ := fun h => hstraight (c.lost_rounds h hafter)
      rw [hkids.straight hw₂]
      by_cases henough : s.rootChildren.fuelFor ≤ fuel
      · rw [if_pos henough, if_pos (by omega)]
        rfl
      · rw [if_neg henough, if_neg (by omega)]
        rfl
    · obtain ⟨v, hv, rfl⟩ := Option.map_eq_some_iff.mp hw'
      by_cases hw₂ : astray w₂
      · exact c.lost_rounds (hkids.lost hw₂ v hv)
          (Walk.rounds_dispatch (.inr rfl) n v)
      · rw [hkids.straight hw₂] at hv
        split at hv
        · cases hv
          exact hlost
        · cases hv
  · -- led astray before the children: whatever comes is
    have hw₂ : astray w₂ := c.lost_turns hw₁ _
    refine ⟨fun hstraight => absurd (c.lost_rounds hw₂ hafter) hstraight,
      fun _ w' hw' => ?_⟩
    obtain ⟨v, hv, rfl⟩ := Option.map_eq_some_iff.mp hw'
    obtain ⟨⟨v, p⟩, hvisit, rfl⟩ := Option.map_eq_some_iff.mp hv
    have hkids := (Walk.rounds_visit policy fuel).2 n {} w₁ v p hvisit
    exact c.lost_rounds (c.lost_rounds hw₁ hkids)
      (Walk.rounds_dispatch (.inr rfl) n v)

/-- **Loops follow the tour,** if the visits in them do and the rest of the
loop. -/
theorem loopsFollow_succ (c : Course policy D steady astray) {fuel : Nat}
    (hvisits : VisitsFollow policy D steady astray fuel)
    (hloops : LoopsFollow policy D steady astray fuel) :
    LoopsFollow policy D steady astray (fuel + 1) := by
  intro n p w done g hw hn hoffspring hvisited hskipped
  have hattached := c.isAttached hw hn
  have hchildren := c.children hw hn
  rcases g.nil_or_append with rfl | ⟨i, s, r, hs, rfl⟩
  · have hnext : p.next? (w.tree.children n) = none := by
      rw [hchildren, hoffspring, Forest.append_nil, Progress.next?,
        List.find?_eq_none]
      intro x hx
      simp [Progress.passed, hvisited, hx]
    rw [Walk.visitChildren_done hattached hnext]
    refine ⟨fun _ => by simp [Forest.fuelFor, Forest.tour],
      fun hlost w' hw' => ?_⟩
    cases hw'
    exact hlost
  · have hchild := Forest.subtree?_of_offspring (c.nodup hw) hoffspring hs
    have hi : i ∉ done.roots := by
      have hnodup := Forest.nodup_roots (Forest.nodup_offspring n (c.nodup hw))
      rw [hoffspring, Forest.roots_append, Forest.roots_append, hs,
        List.nodup_append] at hnodup
      exact fun hmem => hnodup.2.2 i hmem i (by simp) rfl
    have hnext : p.next? (w.tree.children n) = some i := by
      rw [hchildren, hoffspring, Forest.roots_append, Forest.roots_append, hs]
      exact Progress.next?_append hvisited hskipped hi
    have hvisit := hvisits i s w hw hchild
    let v := w.attend policy s.tour
    let q : Progress := { p with visited := p.visited ++ [i] }
    -- on the course, the loop goes on with the others
    have hgoOn : steady v → (if v.tree.isAttached n then
        Walk.visitChildren policy fuel n
          (p.after i (v.tree.parent? i == some n) (w.tree.children n)
            (v.tree.children n)) v
        else some (v, q)) = Walk.visitChildren policy fuel n q v := by
      intro hv
      rw [if_pos (c.isAttached hv hn), c.children hv hn, hchildren,
        Progress.after_same]
    have hrest : steady v → Follows astray
        ((Walk.visitChildren policy fuel n q v).map Prod.fst)
        (r.fuelFor ≤ fuel) (v.attend policy r.tour) := by
      intro hv
      refine hloops n q v (done.append s) r hv hn
        (by rw [hoffspring, Forest.append_assoc]) ?_ hskipped
      simp [q, hvisited, hs]
    have hv : steady v ∨ astray v := c.turns hw _
    have hend : w.attend policy (s.append r).tour = v.attend policy r.tour := by
      rw [Forest.tour_append, Walk.attend_append]
    rw [Walk.visitChildren_next hattached hnext, hend,
      Forest.fuelFor_tree_append hs]
    refine ⟨fun hstraight => ?_, fun hlost w' hw' => ?_⟩
    · have hnot : ¬astray v := fun h => hstraight (c.lost_turns h _)
      have hv := hv.resolve_right hnot
      rw [hvisit.straight hnot]
      by_cases henough : 1 + s.rootChildren.fuelFor ≤ fuel
      · rw [if_pos henough, Option.bind_some, hgoOn hv,
          (hrest hv).straight hstraight]
        by_cases hmore : r.fuelFor ≤ fuel
        · rw [if_pos hmore, if_pos (by omega)]
        · rw [if_neg hmore, if_neg (by omega)]
      · rw [if_neg henough, if_neg (by omega)]
        rfl
    · obtain ⟨⟨w', p'⟩, hloop, rfl⟩ := Option.map_eq_some_iff.mp hw'
      obtain ⟨v', hv', hmore⟩ := Option.bind_eq_some_iff.mp hloop
      by_cases hlostv : astray v
      · have hv'lost := hvisit.lost hlostv v' hv'
        split at hmore
        · exact c.lost_rounds hv'lost
            ((Walk.rounds_visit policy fuel).2 _ _ _ _ _ hmore)
        · cases hmore
          exact hv'lost
      · have hv := hv.resolve_right hlostv
        rw [hvisit.straight hlostv] at hv'
        split at hv'
        · cases hv'
          rw [hgoOn hv] at hmore
          exact (hrest hv).lost hlost w' (by rw [hmore]; rfl)
        · cases hv'

/-- **A walk follows its tour,** by induction on the fuel that visiting a
node and visiting children share. -/
theorem follow (c : Course policy D steady astray) (fuel : Nat) :
    VisitsFollow policy D steady astray fuel ∧
      LoopsFollow policy D steady astray fuel := by
  induction fuel with
  | zero =>
    refine ⟨fun n s w hw hs => ⟨fun _ => ?_, fun _ w' h => ?_⟩,
      fun n p w done g hw hn hg _ _ => ⟨fun _ => ?_, fun _ w' h => ?_⟩⟩
    · simp [Walk.visit]
    · simp [Walk.visit] at h
    · have hpos : 0 <
          g.fuelFor := by cases g <;> simp only [Forest.fuelFor] <;> omega
      rw [if_neg (by omega)]
      rfl
    · simp [Walk.visitChildren] at h
  | succ fuel ih =>
    exact ⟨c.visitsFollow_succ ih.2, c.loopsFollow_succ ih.1 ih.2⟩

/-- The same of a whole walk. -/
theorem follow_run (c : Course policy D steady astray) (hw : steady w)
    (fuel : Nat) :
    Follows astray (Walk.run policy fuel w) (1 + D.rootChildren.fuelFor ≤ fuel)
      ((w.attend policy D.tour).finish policy) := by
  have hroot : D.subtree? Tree.root = some D := by
    have hdoc := (c.sound hw).subtree?_root
    rw [c.document hw] at hdoc
    exact Forest.subtree?_of_roots_eq (Forest.roots_subtree? hdoc)
  have hvisit := (c.follow fuel).1 Tree.root D w hw hroot
  have hlast : ∀ v, astray v → astray (v.finish policy) := by
    intro v hv
    rw [Walk.finish_eq_turns]
    exact c.lost_turns hv _
  refine ⟨fun hstraight => ?_, fun hlost w' hw' => ?_⟩
  · rw [Walk.run, hvisit.straight fun h => hstraight (hlast _ h)]
    split <;> rfl
  · obtain ⟨v, hv, rfl⟩ := Option.map_eq_some_iff.mp hw'
    by_cases hmid : astray (w.attend policy D.tour)
    · exact hlast v (hvisit.lost hmid v hv)
    · rw [hvisit.straight hmid] at hv
      split at hv
      · cases hv
        exact hlost
      · cases hv

end Course

/-! ## Rules that change nothing -/

/-- A rule that neither crashes nor changes the tree of the file: there are
memories `fits` that it never gets out of, and with any of them every call,
for a node that is attached, ends and leaves the file as it is in `t`. -/
def ActiveRule.Quiet (policy : Policy) (t : Tree) (r : ActiveRule σ) : Prop :=
  r.failed = false ∧ ∃ fits : σ → Prop, fits r.visitor.memory ∧
    ∀ memory, fits memory → ∀ phase node (s : Scene), s.tree.Consistent →
      s.tree.document = t.document →
      node.all s.tree.isAttached = true →
      ∃ memory' s', (ActiveRule.hook
        { r with visitor := { r.visitor with memory } } phase node).run policy
        r.id s = (s', .finished memory') ∧ fits memory' ∧
          s'.tree.document = t.document

/-- The tree of the file is that of `t`, and the rules leave it so. -/
structure Walk.Calm (policy : Policy) (t : Tree) (w : Walk σ) : Prop where
  consistent : w.tree.Consistent
  document : w.tree.document = t.document
  rules : ∀ r ∈ w.rules, r.Quiet policy t

variable {t : Tree} {r : ActiveRule σ} {rs : List (ActiveRule σ)} {s : Scene}
  {phase : Phase} {node : Option NodeId}

/-- A call of a quiet rule leaves the document alone, and the rule quiet. -/
theorem ActiveRule.Quiet.invoke (h : r.Quiet policy t) (hs : s.tree.Consistent)
    (hdoc : s.tree.document = t.document)
    (hn : node.all s.tree.isAttached = true) :
    (r.invoke policy phase node s).1.Quiet policy t ∧
      (r.invoke policy phase node s).2.tree.Consistent ∧
      (r.invoke policy phase node s).2.tree.document = t.document := by
  obtain ⟨hf, fits, hfits, hcalm⟩ := h
  obtain ⟨memory', s', hrun, hfits', hdoc'⟩ :=
    hcalm r.visitor.memory hfits phase node
      { s with tree := s.tree.begin } hs.begin hdoc hn
  obtain ⟨ds, after, e, hr⟩ :=
    (r.hook phase node).exists_runs policy r.id { s with tree := s.tree.begin }
  obtain ⟨rfl, rfl⟩ := Prod.mk.inj (hr.run_eq.symm.trans hrun)
  have hcons : after.tree.Consistent := by
    rw [hr.tree_eq]
    exact hs.begin.run _
  rw [ActiveRule.invoke_of_finish hr]
  exact ⟨⟨hf, fits, hfits', hcalm⟩, hcons.close _, hdoc'⟩

namespace Walk.Calm

variable {w : Walk σ}

/-- **Step.** A turn of a quiet rule keeps a walk calm. -/
theorem turn (h : w.Calm policy t) (τ : Turn) :
    (w.turn policy τ).Calm policy t := by
  rcases Walk.turn_cases policy w τ with hturn | ⟨r, hr, -, hn, hturn⟩
  · rwa [hturn]
  · obtain ⟨hquiet, hcons, hdoc⟩ :=
      (h.rules r (List.mem_of_getElem? hr)).invoke h.consistent h.document hn
    rw [hturn]
    refine ⟨hcons, hdoc, fun r' hr' => ?_⟩
    rcases List.mem_or_eq_of_mem_set hr' with hmem | rfl
    · exact h.rules r' hmem
    · exact hquiet

theorem course (policy : Policy) (t : Tree) :
    Course policy t.document (@Walk.Calm σ policy t) fun _ => False where
  sound h := h.consistent.sound
  document h := h.document
  turn τ h := Or.inl (h.turn τ)
  lost _ h := h

end Walk.Calm

/-! ## The calls of a tour -/

/-- The calls of one round: every rule, in order. -/
def Call.round (rules : List RuleId) (phase : Phase)
    (node : Option NodeId) : List Call :=
  rules.map fun rule => ⟨rule, phase, node⟩

/-- The calls of a walk over the subtree of a node while nothing changes. -/
def Tree.tour (t : Tree) (rules : List RuleId) (n : NodeId) : List Call :=
  (t.subtree n).tour.flatMap fun o => Call.round rules o.1 (some o.2)

/-- Rules that change nothing are called one and all. -/
theorem calls_callEach (hs : s.tree.Consistent)
    (hdoc : s.tree.document = t.document) (hrs : ∀ r ∈ rs, r.Quiet policy t)
    (hn : node.all (· ∈ t.document.ids) = true) :
    (callEach policy phase node (fun u => node.all u.isAttached) rs s).2.2 =
      Call.round (rs.map ActiveRule.id) phase node := by
  induction rs generalizing s with
  | nil => rfl
  | cons r rs ih =>
    obtain ⟨hr, hrs⟩ := List.forall_mem_cons.mp hrs
    have hgo : node.all s.tree.isAttached = true := by
      cases node with
      | none => rfl
      | some n =>
        have hmem : n ∈ t.document.ids := by simpa using hn
        exact hs.sound.mem_document_iff.mp (hdoc ▸ hmem)
    obtain ⟨-, hcons, hdoc'⟩ :=
      @ActiveRule.Quiet.invoke _ _ _ _ _ phase _ hr hs hdoc hgo
    have hrest := ih hcons hdoc' hrs
    simp only [Call.round] at hrest
    simp [callEach, hgo, hr.1, hrest, Call.round, ActiveRule.id_invoke]

namespace Walk.Calm

variable {w : Walk σ}

theorem attend (h : w.Calm policy t) (os : List (Phase × NodeId)) :
    (w.attend policy os).Calm policy t :=
  Walk.turns_induction (P := Walk.Calm policy t) (fun _ τ hv => hv.turn τ) h _

theorem calls_dispatch (h : w.Calm policy t) {n : NodeId}
    (hn : n ∈ t.document.ids) :
    (w.dispatch policy phase n).calls =
      w.calls ++ Call.round (w.rules.map ActiveRule.id) phase (some n) := by
  rw [← calls_callEach h.consistent h.document h.rules (by simpa using hn)]
  rfl

theorem calls_finish (h : w.Calm policy t) : (w.finish policy).calls =
    w.calls ++ Call.round (w.rules.map ActiveRule.id) .afterLastNode none := by
  have hcalls := @calls_callEach σ policy t w.rules w.scene .afterLastNode none
    h.consistent h.document
    h.rules rfl
  rw [← hcalls]
  rfl

/-- **Run.** The calls of a tour are the rounds of its stops. -/
theorem calls_attend (h : w.Calm policy t) (os : List (Phase × NodeId))
    (hos : ∀ o ∈ os, o.2 ∈ t.document.ids) : (w.attend policy os).calls =
      w.calls ++ os.flatMap fun o => Call.round (w.rules.map ActiveRule.id) o.1
        (some o.2) := by
  induction os generalizing w with
  | nil => simp
  | cons o os ih =>
    obtain ⟨ho, hos⟩ := List.forall_mem_cons.mp hos
    have hnext : (w.dispatch policy o.1 o.2).Calm policy t := by
      rw [Walk.dispatch_eq_turns]
      exact Walk.turns_induction (P := Walk.Calm policy t) (fun _ τ hv =>
        hv.turn τ) h _
    have hids : (w.dispatch policy o.1 o.2).rules.map ActiveRule.id =
        w.rules.map ActiveRule.id := by
      rw [Walk.dispatch_eq_turns, Walk.ids_turns]
    rw [Walk.attend_cons, ih hnext hos, h.calls_dispatch ho, hids,
      List.flatMap_cons, List.append_assoc]

end Walk.Calm

/-- A tour calls the rules before a node, tours its children in order, and
calls the rules after it. -/
theorem Tree.Sound.tour_eq (h : t.Sound) (rules : List RuleId) {n : NodeId}
    (hn : t.contains n = true) :
    t.tour rules n = Call.round rules .beforeChildren (some n) ++
      (t.children n).flatMap (t.tour rules) ++
      Call.round rules .afterChildren (some n) := by
  obtain ⟨s, hs⟩ := Forest.exists_subtree (Tree.contains_iff_mem.mp hn)
  have hbelow : (t.forest.offspring n).tour = (t.children n).flatMap fun c =>
      (t.subtree c).tour :=
    Forest.flatMap_offspring rfl Forest.tour_append h.nodup n
  have hkids : s.rootChildren = t.forest.offspring n := by
    rw [Forest.offspring, hs]
    rfl
  have htour : s.tour = (.beforeChildren, n) ::
      ((t.children n).flatMap (fun c => (t.subtree c).tour) ++
          [(.afterChildren, n)]) := by
    rw [Forest.tour_tree (Forest.roots_subtree? hs), hkids, hbelow]
  rw [Tree.tour, Tree.subtree_of_subtree? hs, htour]
  simp only [List.flatMap_cons, List.flatMap_append, List.flatMap_nil,
    List.append_nil,
    List.append_assoc, List.flatMap_assoc]
  rfl

/-- A round calls the rules that are listed for its own phase and node, and
for no other. -/
theorem Call.count_round (rules : List RuleId) (rule : RuleId)
    (phase phase' : Phase) (n m : NodeId) :
    (Call.round rules phase' (some m)).count ⟨rule, phase, some n⟩ =
      if (phase', m) = (phase, n) then rules.count rule else 0 := by
  split
  · next h =>
    obtain ⟨rfl, rfl⟩ := Prod.mk.inj h
    exact List.count_map_of_injective rules _ (fun a b hab =>
      (Call.mk.inj hab).1) rule
  · next h =>
    rw [List.count_eq_zero, Call.round, List.mem_map]
    rintro ⟨id, -, hcall⟩
    obtain ⟨-, hphase, hnode⟩ := Call.mk.inj hcall
    exact h (Prod.ext hphase (Option.some.inj hnode))

/-- In a tour each rule is called once before and once after each node, and
for no others. -/
theorem Tree.count_tour (t : Tree) (rules : List RuleId) (rule : RuleId)
    {phase : Phase} (hphase : phase = .beforeChildren ∨ phase = .afterChildren)
    (n m : NodeId) :
    (t.tour rules m).count ⟨rule, phase, some n⟩ = (t.descendants m).count n *
      rules.count rule := by
  have hos : ∀ os : List (Phase × NodeId),
      (os.flatMap fun o => Call.round rules o.1 (some o.2)).count
        ⟨rule, phase, some n⟩ =
        os.count (phase, n) * rules.count rule := by
    intro os
    induction os with
    | nil => simp
    | cons o os ih =>
      rw [List.flatMap_cons, List.count_append, ih, Call.count_round,
        List.count_cons, Nat.add_mul,
        Nat.add_comm]
      by_cases ho : o = (phase, n) <;> simp [ho]
  rw [Tree.tour, hos, Forest.count_tour hphase]
  rfl

/-- **Over a tree that stays as it is, a walk is the tour of the file.** Let
rules neither crash nor change the tree of the file. With fuel for twice the
nodes of the file the walk ends, having called the rules on the tour of the
root and then each rule once more. The tour calls the rules before a node,
tours its children in order, and calls the rules after it, so each rule is
called once before and once after each node of the file, and for no others.
Specification, §4.3. -/
theorem run_eq_tour (policy : Policy) (w : Walk σ) (ht : w.tree.Reachable)
    (hrules : ∀ r ∈ w.rules, r.Quiet policy w.tree) :
    let t := w.tree
    let rules := w.rules.map ActiveRule.id
    (∃ w', (∀ fuel, 2 * (t.descendants Tree.root).length ≤ fuel →
      Walk.run policy fuel w = some w') ∧
        w'.calls = w.calls ++ t.tour rules Tree.root ++
          Call.round rules .afterLastNode none ∧
        w'.tree.document = t.document) ∧
      (∀ n, t.contains n = true →
        t.tour rules n = Call.round rules .beforeChildren (some n) ++
        (t.children n).flatMap (t.tour rules) ++
          Call.round rules .afterChildren (some n)) ∧
      ∀ rule phase n, phase = .beforeChildren ∨ phase = .afterChildren →
        (t.tour rules Tree.root).count ⟨rule, phase, some n⟩ =
          if n ∈ t.descendants Tree.root then rules.count rule else 0 := by
  intro t rules
  have hcons : t.Consistent := ht.consistent
  have hcalm : w.Calm policy t := ⟨hcons, rfl, hrules⟩
  refine ⟨⟨(w.attend policy t.document.tour).finish policy, fun fuel hfuel =>
    ?_, ?_, ?_⟩,
    fun n hn => hcons.sound.tour_eq rules hn, fun rule phase n hphase => ?_⟩
  · -- With the fuel the trees ask for, the walk is the tour; twice the number
    -- of nodes is enough for that.
    have hroots := Forest.roots_subtree? hcons.sound.subtree?_root
    have henough : 1 + t.document.rootChildren.fuelFor ≤ fuel := by
      have hle := t.document.rootChildren.fuelFor_le
      have hlength := Forest.length_ids_tree hroots
      have hall : (t.descendants Tree.root).length = t.document.ids.length :=
        rfl
      omega
    rw [((Walk.Calm.course policy t).follow_run hcalm fuel).straight id,
      if_pos henough]
  · have hend := hcalm.attend t.document.tour
    rw [hend.calls_finish, hcalm.calls_attend _ fun o ho =>
      Forest.mem_ids_of_mem_tour ho]
    rw [Walk.attend, Walk.ids_turns]
    rfl
  · rw [Walk.finish_eq_turns]
    refine (Walk.turns_induction (P := Walk.Calm policy t) (fun _ τ hv =>
      hv.turn τ) ?_ _).document
    exact hcalm.attend _
  · -- No node occurs twice, so each is counted once.
    have hnodup : (t.descendants Tree.root).Nodup := hcons.sound.nodup_document
    rw [t.count_tour rules rule hphase n]
    split
    · next hn => rw [List.count_eq_one_of_mem hnodup hn, Nat.one_mul]
    · next hn => rw [List.count_eq_zero.mpr hn, Nat.zero_mul]

/-- A rule that reports every node, and counts them. -/
def counter (id : RuleId) : ActiveRule Nat where
  id
  visitor :=
    { memory := 0
      before := fun _ seen => .emit seen "seen" true fun _ =>
        .finish (seen + 1) }

theorem counter_quiet (id : RuleId) (t : Tree) :
    (counter id).Quiet Policy.all t := by
  refine ⟨rfl, fun _ => True, trivial, fun seen _ phase node s _ hdoc _ => ?_⟩
  unfold ActiveRule.hook
  split
  · exact ⟨seen + 1, _, rfl, trivial, hdoc⟩
  · exact ⟨seen, s, rfl, trivial, hdoc⟩
  · exact ⟨seen, s, rfl, trivial, hdoc⟩

/-- Two such rules on a file with one token. -/
theorem run_eq_tour_counters :
    let t := Tree.build .file [.token .identifier "a"]
    let w : Walk Nat :=
      { rules := [counter "x", counter "y"], scene := { tree := t } }
    ∃ w', (∀ fuel, 4 ≤ fuel → Walk.run Policy.all fuel w = some w') ∧
      w'.calls = [⟨"x", .beforeChildren, some 0⟩,
        ⟨"y", .beforeChildren, some 0⟩,
        ⟨"x", .beforeChildren, some 1⟩, ⟨"y", .beforeChildren, some 1⟩,
        ⟨"x", .afterChildren, some 1⟩, ⟨"y", .afterChildren, some 1⟩,
        ⟨"x", .afterChildren, some 0⟩, ⟨"y", .afterChildren, some 0⟩,
        ⟨"x", .afterLastNode, none⟩, ⟨"y", .afterLastNode, none⟩] := by
  intro t w
  have hquiet : ∀ r ∈ w.rules, r.Quiet Policy.all w.tree := by
    intro r hr
    rcases List.mem_pair.mp hr with rfl | rfl
    · exact counter_quiet "x" t
    · exact counter_quiet "y" t
  obtain ⟨⟨w', hrun, hcalls, -⟩, -⟩ :=
    run_eq_tour Policy.all w ⟨.file, [.token .identifier "a"], [], rfl⟩ hquiet
  exact ⟨w', hrun, hcalls.trans (by decide)⟩

end TreeLint
