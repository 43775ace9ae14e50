import TreeLint.Proofs.Lint.Children
import Mathlib.Computability.StateTransition

/-!
# What a walk has still to do

A walk is a recursion over a tree that changes under it. Here it is taken
apart: at every moment there is a walk so far and an agenda of what is
still to do, nearest first (`Traversal`). One step takes the first errand
off the agenda (`Traversal.step?`). It gives a rule its turn, or looks at
the children of a node and puts the visit of the next one in front.

`run_iff_reaches` says that the walks that end are those whose agenda gets
empty, and with which outcome. So a statement about the middle of a walk
has what follows at hand, which the recursion keeps on its stack.

Which rules take part is a parameter (`places`). Once a rule has crashed,
the walk of all rules and the walk of all others are the same from there
on, step by step and to the end (`goesOnWithout_of_failed`).

The walk is that of the specification, §4.3, as a machine that takes one
step at a time.
-/

open StateTransition (Reaches)

namespace TreeLint

/-- Something on the agenda of a walk. -/
inductive Errand where
  /-- A rule has its turn. -/
  | turn (t : Turn)
  /-- The children of `n` are visited, those that were not passed. -/
  | children (n : NodeId) (p : Progress)
  /-- The visit of a child of `n` is over. The children that `n` had when
  it began are in `before`, the progress at that time is `p`. -/
  | settle (n child : NodeId) (p : Progress) (before : List NodeId)
deriving DecidableEq, Repr

namespace Errand

/-- Turns of the rules at some places, one after the other. -/
def round (places : List Nat) (phase : Phase) (node : Option NodeId) :
    List Errand :=
  places.map fun i => .turn ⟨i, phase, node⟩

/-- The visit of a node and everything below it. -/
def visit (places : List Nat) (n : NodeId) : List Errand :=
  round places .beforeChildren (some n) ++
    .children n {} :: round places .afterChildren (some n)

/-- Whether this is anything but a turn of the rule at place `i`. -/
def spares (i : Nat) : Errand → Bool
  | .turn t => t.rule != i
  | _ => true

/-- Leaving a rule out of a round is a round of the others. -/
theorem filter_round (i : Nat) (places : List Nat) (phase : Phase)
    (node : Option NodeId) :
    (round places phase node).filter (spares i) =
      round (places.filter (· != i)) phase node := by
  rw [round, List.filter_map]
  rfl

/-- Leaving a rule out of a visit is a visit of the others. -/
theorem filter_visit (i : Nat) (places : List Nat) (n : NodeId) :
    (visit places n).filter (spares i) =
      visit (places.filter (· != i)) n := by
  simp only [visit, List.filter_append, filter_round,
    List.filter_cons_of_pos (show spares i (.children n {}) = true from rfl)]

end Errand

/-- A walk and what it has still to do. -/
structure Traversal (σ : Type) where
  walk : Walk σ
  agenda : List Errand

variable {σ : Type} {policy : Policy} {places : List Nat} {i k : Nat}
  {n child : NodeId} {p p' : Progress} {w w' v : Walk σ}
  {x y z : Traversal σ} {r : ActiveRule σ} {es : List Errand}

namespace Traversal

/-- The beginning of a walk of the rules at some places: the visit of the
root, and a last round. -/
def start (places : List Nat) (w : Walk σ) : Traversal σ :=
  ⟨w, Errand.visit places Tree.root ++
    Errand.round places .afterLastNode none⟩

/-- Do what comes first on the agenda. -/
def step? (policy : Policy) (places : List Nat) :
    Traversal σ → Option (Traversal σ)
  | ⟨_, []⟩ => none
  | ⟨w, .turn t :: es⟩ => some ⟨w.turn policy t, es⟩
  | ⟨w, .children n p :: es⟩ =>
    if w.tree.isAttached n then
      match p.next? (w.tree.children n) with
      | none => some ⟨w, es⟩
      | some child =>
        some ⟨w, Errand.visit places child ++
          .settle n child p (w.tree.children n) :: es⟩
    else some ⟨w, es⟩
  | ⟨w, .settle n child p before :: es⟩ =>
    if w.tree.isAttached n then
      some ⟨w, .children n (p.after child (w.tree.parent? child == some n)
        before (w.tree.children n)) :: es⟩
    else some ⟨w, es⟩

/-! ## Steps

One step takes the first errand off the agenda (specification, §4.3). A turn
calls one rule; a round over children looks up the next child and puts its
visit in front, with what is to be settled after it. -/

/-- As long as there is an errand there is a step. -/
theorem exists_step (policy : Policy) (places : List Nat) (w : Walk σ)
    (e : Errand) (es : List Errand) :
    ∃ y, step? policy places ⟨w, e :: es⟩ = some y := by
  cases e with
  | turn t => exact ⟨_, rfl⟩
  | children n p =>
    simp only [step?]
    split
    · split <;> exact ⟨_, rfl⟩
    · exact ⟨_, rfl⟩
  | settle n child p before =>
    simp only [step?]
    split <;> exact ⟨_, rfl⟩

/-- A step is a turn, or leaves the walk as it is. -/
theorem walk_step (h : x.step? policy places = some y) :
    y.walk = x.walk ∨ ∃ t, y.walk = x.walk.turn policy t := by
  obtain ⟨w, _ | ⟨e, es⟩⟩ := x
  · cases h
  · cases e with
    | turn t =>
      cases h
      exact Or.inr ⟨t, rfl⟩
    | children n p =>
      simp only [step?] at h
      split at h
      · split at h <;> cases h <;> exact Or.inl rfl
      · cases h
        exact Or.inl rfl
    | settle n child p before =>
      simp only [step?] at h
      split at h <;> cases h <;> exact Or.inl rfl

theorem length_step (h : x.step? policy places = some y) :
    y.walk.rules.length = x.walk.rules.length := by
  rcases walk_step h with hw | ⟨t, hw⟩ <;> simp [hw]

/-- Whatever a walk that ends comes by, the end follows: no step is a
matter of choice. -/
theorem ends_of_reaches (h : Reaches (step? policy places) x y)
    (hend : Reaches (step? policy places) x ⟨v, []⟩) :
    Reaches (step? policy places) y ⟨v, []⟩ := by
  rcases StateTransition.reaches_total h hend with hgoOn | hback
  · exact hgoOn
  · -- nothing is left to do at the end, so `y` is the end
    rcases hback.cases_head with heq | ⟨z, hz, -⟩
    · exact heq ▸ .refl
    · cases hz

/-! ## Walks that end get through their agenda -/

theorem reaches_round (policy : Policy) (places is : List Nat)
    (phase : Phase) (node : Option NodeId) (w : Walk σ)
    (es : List Errand) :
    Reaches (step? policy places) ⟨w, Errand.round is phase node ++ es⟩
      ⟨w.turns policy (is.map fun i => ⟨i, phase, node⟩), es⟩ := by
  induction is generalizing w with
  | nil => exact .refl
  | cons i is ih => exact .head rfl (ih (w.turn policy ⟨i, phase, node⟩))

theorem reaches_dispatch (policy : Policy) (places : List Nat)
    (phase : Phase) (n : NodeId) (w : Walk σ) (es : List Errand)
    (hk : w.rules.length = k) :
    Reaches (step? policy places)
      ⟨w, Errand.round (List.range k) phase (some n) ++ es⟩
      ⟨w.dispatch policy phase n, es⟩ := by
  have h := reaches_round policy places (List.range k) phase (some n) w es
  rwa [Walk.dispatch_eq_turns, Turn.rounds, List.flatMap_singleton, hk]

/-- A visit that ends gets through its errands, whatever follows them on
the agenda; by induction on the fuel, which visits and loops share. -/
theorem reaches_of_visit (policy : Policy) (k fuel : Nat) :
    (∀ n (w w' : Walk σ) es, w.rules.length = k →
      Walk.visit policy fuel n w = some w' →
      Reaches (step? policy (List.range k))
        ⟨w, Errand.visit (List.range k) n ++ es⟩ ⟨w', es⟩) ∧
    ∀ n p (w w' : Walk σ) p' es, w.rules.length = k →
      Walk.visitChildren policy fuel n p w = some (w', p') →
      Reaches (step? policy (List.range k))
        ⟨w, .children n p :: es⟩ ⟨w', es⟩ := by
  -- Visits and loops over children call each other, so both are shown
  -- together, by induction on the fuel they share.
  induction fuel with
  | zero =>
    exact ⟨fun n w w' es _ h => by simp [Walk.visit] at h,
      fun n p w w' p' es _ h => by simp [Walk.visitChildren] at h⟩
  | succ fuel ih =>
    constructor
    · intro n w w' es hk h
      simp only [Walk.visit] at h
      split at h
      · cases h
      · next v p hkids =>
        cases h
        have hk₁ : (w.dispatch policy .beforeChildren n).rules.length = k :=
          (Walk.length_dispatch policy _ n w).trans hk
        have hk₂ : v.rules.length = k :=
          ((Walk.rounds_visit policy fuel).2 _ _ _ _ _ hkids).length.trans hk₁
        -- Three errands: the rules before, the children, the rules after.
        rw [Errand.visit, List.append_assoc, List.cons_append]
        refine (reaches_dispatch policy _ _ n w _ hk).trans ?_
        refine (ih.2 n {} _ v p _ hk₁ hkids).trans ?_
        exact reaches_dispatch policy _ _ n v es hk₂
    · intro n p w w' p' es hk h
      cases hn : w.tree.isAttached n with
      | false =>
        rw [Walk.visitChildren_detached hn] at h
        cases h
        exact .single (by simp [step?, hn])
      | true =>
        cases hnext : p.next? (w.tree.children n) with
        | none =>
          rw [Walk.visitChildren_done hn hnext] at h
          cases h
          exact .single (by simp [step?, hn, hnext])
        | some child =>
          rw [Walk.visitChildren_next hn hnext] at h
          obtain ⟨v, hvisit, hrest⟩ := Option.bind_eq_some_iff.mp h
          have hkv : v.rules.length = k :=
            ((Walk.rounds_visit policy fuel).1 _ _ _ hvisit).length.trans hk
          have hchild := ih.1 child w v
            (.settle n child p (w.tree.children n) :: es) hk hvisit
          -- One step puts the visit of the child on the agenda, with
          -- `settle` behind it to record the visit.
          refine .head (b := ⟨w, Errand.visit (List.range k) child ++
            .settle n child p (w.tree.children n) :: es⟩)
            (by simp [step?, hn, hnext]) (hchild.trans ?_)
          split at hrest
          · next hv =>
            exact .head (by simp only [step?, hv, if_true]; rfl)
              (ih.2 n _ v w' p' es hkv hrest)
          · next hv =>
            cases hrest
            exact .single (by simp [step?, hv])

/-! ## Walks that get through their agenda end -/

/-- The agenda can be carried out with some fuel for every loop on it, and
the walk is then at `v`. -/
def CarriedOut (policy : Policy) (v : Walk σ) :
    List Errand → Walk σ → Prop
  | [], w => w = v
  | .turn t :: es, w => CarriedOut policy v es (w.turn policy t)
  | .children n p :: es, w => ∃ fuel w' p',
    Walk.visitChildren policy fuel n p w = some (w', p') ∧
      CarriedOut policy v es w'
  | .settle n child p before :: es, w => ∃ fuel w' p',
    (if w.tree.isAttached n then
        Walk.visitChildren policy fuel n
          (p.after child (w.tree.parent? child == some n) before
            (w.tree.children n)) w
      else some (w, { p with visited := p.visited ++ [child] })) =
        some (w', p') ∧ CarriedOut policy v es w'

theorem carriedOut_round (is : List Nat) (phase : Phase)
    (node : Option NodeId) :
    CarriedOut policy v (Errand.round is phase node ++ es) w ↔
      CarriedOut policy v es
        (w.turns policy (is.map fun i => ⟨i, phase, node⟩)) := by
  induction is generalizing w with
  | nil => exact Iff.rfl
  | cons i is ih => exact ih

/-- In terms of the walk: to carry out a round of all rules is to dispatch
the node to them. -/
theorem carriedOut_dispatch (phase : Phase) (n : NodeId)
    (hk : w.rules.length = k) :
    CarriedOut policy v
        (Errand.round (List.range k) phase (some n) ++ es) w ↔
      CarriedOut policy v es (w.dispatch policy phase n) := by
  rw [carriedOut_round, Walk.dispatch_eq_turns, Turn.rounds,
    List.flatMap_singleton, hk]

/-- The errands of a visit can be carried out only if the visit ends. -/
theorem exists_visit_of_carriedOut (hk : w.rules.length = k)
    (h : CarriedOut policy v (Errand.visit (List.range k) n ++ es) w) :
    ∃ fuel w', Walk.visit policy fuel n w = some w' ∧
      CarriedOut policy v es w' := by
  rw [Errand.visit, List.append_assoc, List.cons_append,
    carriedOut_dispatch _ _ hk] at h
  obtain ⟨fuel, u, p, hkids, hrest⟩ := h
  have hku : u.rules.length = k :=
    ((Walk.rounds_visit policy fuel).2 _ _ _ _ _ hkids).length.trans
      ((Walk.length_dispatch policy _ n w).trans hk)
  rw [carriedOut_dispatch _ _ hku] at hrest
  exact ⟨fuel + 1, _, by rw [Walk.visit_succ, hkids]; rfl, hrest⟩

/-- What can be carried out after a step could be before. -/
theorem carriedOut_of_step (hk : x.walk.rules.length = k)
    (h : x.step? policy (List.range k) = some y)
    (hy : CarriedOut policy v y.agenda y.walk) :
    CarriedOut policy v x.agenda x.walk := by
  obtain ⟨w, _ | ⟨e, es⟩⟩ := x
  · cases h
  · cases e with
    | turn t =>
      cases h
      exact hy
    | children n p =>
      cases hn : w.tree.isAttached n with
      | false =>
        have hstep : y = ⟨w, es⟩ := by simpa [step?, hn] using h.symm
        subst hstep
        exact ⟨1, w, p, Walk.visitChildren_detached hn, hy⟩
      | true =>
        cases hnext : p.next? (w.tree.children n) with
        | none =>
          have hstep : y = ⟨w, es⟩ := by
            simpa [step?, hn, hnext] using h.symm
          subst hstep
          exact ⟨1, w, p, Walk.visitChildren_done hn hnext, hy⟩
        | some child =>
          have hstep : y = ⟨w, Errand.visit (List.range k) child ++
              .settle n child p (w.tree.children n) :: es⟩ := by
            simpa [step?, hn, hnext] using h.symm
          subst hstep
          obtain ⟨fuel, u, hvisit, fuel', w', p', hloop, hrest⟩ :=
            exists_visit_of_carriedOut hk hy
          -- enough for the visit and for the loop after it
          refine ⟨max fuel fuel' + 1, w', p', ?_, hrest⟩
          rw [Walk.visitChildren_next hn hnext,
            Walk.visit_mono hvisit (Nat.le_max_left fuel fuel'),
            Option.bind_some]
          split at hloop
          · next hu =>
            rw [if_pos hu]
            exact Walk.visitChildren_mono hloop (Nat.le_max_right _ _)
          · next hu => rw [if_neg hu, hloop]
    | settle n child p before =>
      cases hn : w.tree.isAttached n with
      | false =>
        have hstep : y = ⟨w, es⟩ := by simpa [step?, hn] using h.symm
        subst hstep
        exact ⟨0, w, _, by rw [hn]; rfl, hy⟩
      | true =>
        have hstep : y = ⟨w, .children n
            (p.after child (w.tree.parent? child == some n) before
              (w.tree.children n)) :: es⟩ := by
          simpa [step?, hn] using h.symm
        subst hstep
        obtain ⟨fuel, w', p', hloop, hrest⟩ := hy
        exact ⟨fuel, w', p', by rw [hn]; exact hloop, hrest⟩

/-- **Run.** An agenda that is worked off was carried out as the walk does
it. -/
theorem carriedOut_of_reaches (hk : x.walk.rules.length = k)
    (h : Reaches (step? policy (List.range k)) x ⟨v, []⟩) :
    CarriedOut policy v x.agenda x.walk := by
  -- From the end back to the start: each step puts one errand in front of
  -- what is carried out.
  induction h using Relation.ReflTransGen.head_induction_on with
  | refl => rfl
  | head hstep _ ih =>
    exact carriedOut_of_step hk hstep (ih ((length_step hstep).trans hk))

/-- **A walk ends if and only if its agenda gets empty**, and with the same
outcome. -/
theorem run_iff_reaches (policy : Policy) (w v : Walk σ) :
    (∃ fuel, Walk.run policy fuel w = some v) ↔
      Reaches (step? policy (List.range w.rules.length))
        (start (List.range w.rules.length) w) ⟨v, []⟩ := by
  constructor
  · rintro ⟨fuel, h⟩
    obtain ⟨u, hvisit, rfl⟩ := Option.map_eq_some_iff.mp h
    have hku := ((Walk.rounds_visit policy fuel).1 _ _ _ hvisit).length
    refine ((reaches_of_visit policy _ fuel).1 _ w u _ rfl hvisit).trans ?_
    have hlast := reaches_round policy (List.range w.rules.length)
      (List.range w.rules.length) .afterLastNode none u []
    rw [List.append_nil] at hlast
    rwa [Walk.finish_eq_turns, Turn.rounds, List.flatMap_singleton, hku]
  · intro h
    have hcarried : CarriedOut policy v
        (start (List.range w.rules.length) w).agenda w :=
      carriedOut_of_reaches (x := start (List.range w.rules.length) w) rfl h
    obtain ⟨fuel, u, hvisit, hlast⟩ :=
      exists_visit_of_carriedOut (n := Tree.root) rfl hcarried
    have hku := ((Walk.rounds_visit policy fuel).1 _ _ _ hvisit).length
    rw [← List.append_nil (Errand.round _ _ _), carriedOut_round] at hlast
    refine ⟨fuel, ?_⟩
    rw [Walk.run, hvisit, Option.map_some, Walk.finish_eq_turns,
      Turn.rounds, List.flatMap_singleton, hku]
    exact congrArg some hlast

/-! ## Leaving a rule out -/

/-- What is to do if the rule at place `i` has no turns any more. -/
def without (i : Nat) (x : Traversal σ) : Traversal σ :=
  ⟨x.walk, x.agenda.filter (Errand.spares i)⟩

/-- From `x` on the walk of the rules at `places` is the walk of all of
them but the one at place `i`. -/
structure GoesOnWithout (policy : Policy) (places : List Nat) (i : Nat)
    (x : Traversal σ) : Prop where
  /-- Nothing happens to the rule: it is not called. -/
  idle : ∀ y, Reaches (step? policy places) x y →
    y.walk.rules[i]? = x.walk.rules[i]?
  /-- The others come by the same moments. -/
  others : ∀ y, Reaches (step? policy places) x y →
    Reaches (step? policy (places.filter (· != i)))
      (x.without i) (y.without i)
  /-- The walk of the others ends like this one, and only then. -/
  ends : ∀ v, Reaches (step? policy places) x ⟨v, []⟩ ↔
    Reaches (step? policy (places.filter (· != i)))
      (x.without i) ⟨v, []⟩

/-- A rule that has crashed is left as it is. -/
theorem rules_step_of_failed (hr : x.walk.rules[i]? = some r)
    (hf : r.failed = true) (h : x.step? policy places = some y) :
    y.walk.rules[i]? = some r := by
  rcases walk_step h with hw | ⟨t, hw⟩
  · rwa [hw]
  · rw [hw]
    by_cases ht : t.rule = i
    · rwa [Walk.turn_of_failed (ht ▸ hr) hf]
    · exact (Walk.rules_turn_of_ne (Ne.symm ht)).trans hr

/-- A rule that has failed stays as it is: nobody calls it again. -/
theorem rules_of_failed (hr : x.walk.rules[i]? = some r)
    (hf : r.failed = true) (h : Reaches (step? policy places) x y) :
    y.walk.rules[i]? = some r := by
  induction h with
  | refl => exact hr
  | tail _ hstep ih => exact rules_step_of_failed ih hf hstep

/-- What is no turn of a rule is done alike without it. -/
theorem step_without {e : Errand} (he : e.spares i = true)
    (h : step? policy places ⟨w, e :: es⟩ = some y) :
    step? policy (places.filter (· != i)) (without i ⟨w, e :: es⟩) =
      some (y.without i) := by
  -- The errand is not a turn of the rule, so it is the first one on both
  -- agendas.
  rw [without, List.filter_cons_of_pos he]
  cases e with
  | turn t =>
    cases h
    rfl
  | children n p =>
    simp only [step?] at h ⊢
    split at h
    · next hn =>
      rw [if_pos hn]
      split at h
      · next hnext =>
        cases h
        rfl
      · next child hnext =>
        cases h
        rw [without, List.filter_append, Errand.filter_visit]
        rfl
    · next hn =>
      cases h
      rw [if_neg hn]
      rfl
  | settle n child p before =>
    simp only [step?] at h ⊢
    split at h
    · next hn =>
      cases h
      rw [if_pos hn]
      rfl
    · next hn =>
      cases h
      rw [if_neg hn]
      rfl

/-- A turn of a rule that has crashed is nothing. -/
theorem step_of_failed (policy : Policy) (places : List Nat) {e : Errand}
    (hr : w.rules[i]? = some r) (hf : r.failed = true)
    (he : e.spares i = false) (es : List Errand) :
    step? policy places ⟨w, e :: es⟩ = some ⟨w, es⟩ := by
  cases e with
  | turn t =>
    have ht : t.rule = i := by simpa [Errand.spares] using he
    rw [step?, Walk.turn_of_failed (ht ▸ hr) hf]
  | children | settle => cases he

/-- **A rule that has failed can be left out of every later round.** The
steps are the same but for its turns, which do nothing. -/
theorem reaches_without (hr : x.walk.rules[i]? = some r)
    (hf : r.failed = true) (h : Reaches (step? policy places) x y) :
    Reaches (step? policy (places.filter (· != i)))
      (x.without i) (y.without i) := by
  induction h with
  | refl => exact .refl
  | @tail y z hxy hstep ih =>
    refine ih.trans ?_
    obtain ⟨w, _ | ⟨e, es⟩⟩ := y
    · cases hstep
    · cases he : e.spares i with
      | true => exact .single (step_without he hstep)
      | false =>
        rw [Option.mem_def, step_of_failed policy places
          (rules_of_failed hr hf hxy) hf he] at hstep
        cases hstep
        rw [without, List.filter_cons_of_neg (by simp [he])]
        exact .refl

/-- Turns of a rule that has crashed are got through. -/
theorem reaches_of_failed (policy : Policy) (places : List Nat)
    (hr : w.rules[i]? = some r) (hf : r.failed = true)
    {skipped : List Errand} (hskipped : ∀ e ∈ skipped, ¬e.spares i = true)
    (es : List Errand) :
    Reaches (step? policy places) ⟨w, skipped ++ es⟩ ⟨w, es⟩ := by
  induction skipped with
  | nil => exact .refl
  | cons e skipped ih =>
    obtain ⟨he, hskipped⟩ := List.forall_mem_cons.mp hskipped
    exact .head (step_of_failed policy places hr hf
      (Bool.not_eq_true _ ▸ he) (skipped ++ es)) (ih hskipped)

/-- And back: a walk that gets through without the rule gets through with
it. -/
theorem ends_of_without (hf : r.failed = true)
    (h : Reaches (step? policy (places.filter (· != i))) z ⟨v, []⟩) :
    ∀ x : Traversal σ, x.walk.rules[i]? = some r → x.without i = z →
      Reaches (step? policy places) x ⟨v, []⟩ := by
  -- By induction on the shorter run. Before each of its steps the longer
  -- one may have turns of the failed rule to pass.
  induction h using Relation.ReflTransGen.head_induction_on with
  | refl =>
    rintro ⟨w, es⟩ hr hx
    obtain ⟨rfl, hes⟩ := Traversal.mk.inj hx
    have h := reaches_of_failed policy places hr hf
      (List.filter_eq_nil_iff.mp hes) []
    rwa [List.append_nil] at h
  | @head z z' hstep _ ih =>
    rintro ⟨w, es⟩ hr rfl
    cases hes : es.filter (Errand.spares i) with
    | nil =>
      rw [Option.mem_def, without, hes] at hstep
      cases hstep
    | cons e few =>
      obtain ⟨skipped, rest, rfl, hskipped, he, rfl⟩ :=
        List.filter_eq_cons_iff.mp hes
      obtain ⟨y, hy⟩ := exists_step policy places w e rest
      have hfew := step_without he hy
      rw [without, List.filter_cons_of_pos he, ← hes] at hfew
      have heq : z' = y.without i := Option.some.inj (hstep.symm.trans hfew)
      refine (reaches_of_failed policy places hr hf hskipped _).trans
        (.head hy ?_)
      exact ih y (rules_step_of_failed (x := ⟨w, e :: rest⟩) hr hf hy)
        heq.symm

/-- **A rule that has crashed is out of the walk**, and the walk goes on for
all others. -/
theorem goesOnWithout_of_failed (policy : Policy) (places : List Nat)
    (hr : x.walk.rules[i]? = some r) (hf : r.failed = true) :
    GoesOnWithout policy places i x where
  idle _ h := (rules_of_failed hr hf h).trans hr.symm
  others _ h := reaches_without hr hf h
  ends _ := ⟨reaches_without hr hf, fun h => ends_of_without hf h x hr rfl⟩

end Traversal

end TreeLint
