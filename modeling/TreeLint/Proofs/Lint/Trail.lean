import TreeLint.Proofs.Lint.Tour

/-!
# Which nodes a walk visits

`Walk.trail` follows a walk and writes down the nodes it visits. It is the
walk that it follows (`trail_fst`), and it tells how often a node was
visited, whoever is called there.

Fuel is of interest only where it runs out. `Walk.Ends` says that a visit
ends, with any fuel from some amount on, and has one rule for every way a
walk goes on. So a proof that walks come to an end need not count fuel.

The walk is that of the specification, §4.3.
-/

namespace TreeLint.Walk

variable {σ : Type} {policy : Policy} {n child : NodeId} {p p' : Progress}
  {w v w' : Walk σ} {seen seen₁ seen₂ : List NodeId}

mutual

/-- Visit a node and everything below it, and write down the nodes visited. -/
def trail (policy : Policy) :
    Nat → NodeId → Walk σ → Option (Walk σ × List NodeId)
  | 0, _, _ => none
  | fuel + 1, n, w =>
    (trailBelow policy fuel n {} (w.dispatch policy .beforeChildren n)).map
        fun (v, _, seen) =>
      (v.dispatch policy .afterChildren n, n :: seen)

/-- Visit the children of a node that are still to be visited, and write
down the nodes visited. -/
def trailBelow (policy : Policy) :
    Nat → NodeId → Progress → Walk σ → Option (Walk σ × Progress × List NodeId)
  | 0, _, _, _ => none
  | fuel + 1, n, p, w =>
    if !w.tree.isAttached n then some (w, p, [])
    else match p.next? (w.tree.children n) with
      | none => some (w, p, [])
      | some child =>
        (trail policy fuel child w).bind fun (v, seen) =>
          if v.tree.isAttached n then
            (trailBelow policy fuel n
              (p.after child (v.tree.parent? child == some n)
                (w.tree.children n) (v.tree.children n)) v).map
                fun (w', p', seen') => (w', p', seen ++ seen')
          else some (v, { p with visited := p.visited ++ [child] }, seen)

end

/-- One round of the loop, with the nodes it visits. -/
theorem trailBelow_next {fuel : Nat} (h : w.tree.isAttached n = true)
    (hnext : p.next? (w.tree.children n) = some child) :
    trailBelow policy (fuel + 1) n p w =
      (trail policy fuel child w).bind fun r =>
      if r.1.tree.isAttached n then
        (trailBelow policy fuel n
          (p.after child (r.1.tree.parent? child == some n) (w.tree.children n)
            (r.1.tree.children n)) r.1).map
            fun q => (q.1, q.2.1, r.2 ++ q.2.2)
      else some (r.1, { p with visited := p.visited ++ [child] }, r.2) := by
  simp only [trailBelow, h, hnext, Bool.not_true, Bool.false_eq_true, if_false]

/-- The walk that is followed; by induction on the fuel, which both share. -/
theorem trail_fst (policy : Policy) (fuel : Nat) :
    (∀ n (w : Walk σ), (trail policy fuel n w).map Prod.fst =
      Walk.visit policy fuel n w) ∧
      ∀ n p (w : Walk σ), (trailBelow policy fuel n p w).map
        (fun r => (r.1, r.2.1)) =
        Walk.visitChildren policy fuel n p w := by
  -- Both recursions are the same but for the list of nodes, which is
  -- projected away.
  induction fuel with
  | zero =>
    exact ⟨fun n w => by simp [trail, Walk.visit],
      fun n p w => by simp [trailBelow, Walk.visitChildren]⟩
  | succ fuel ih =>
    constructor
    · intro n w
      rw [Walk.visit_succ, ← ih.2, trail]
      cases trailBelow policy fuel n {}
        (w.dispatch policy .beforeChildren n) <;> rfl
    · intro n p w
      cases hn : w.tree.isAttached n with
      | false => simp [trailBelow, Walk.visitChildren, hn]
      | true =>
        cases hnext : p.next? (w.tree.children n) with
        | none => simp [trailBelow, Walk.visitChildren, hn, hnext]
        | some child =>
          rw [Walk.visitChildren_next hn hnext,
            trailBelow_next hn hnext, ← ih.1]
          cases trail policy fuel child w with
          | none => rfl
          | some r =>
            simp only [Option.map_some, Option.bind_some]
            split
            · rw [← ih.2, Option.map_map]
              rfl
            · rfl

/-! ## Walks that end -/

/-- With any fuel from some amount on, a visit ends like this. -/
def Ends (policy : Policy) (n : NodeId) (w w' : Walk σ)
    (seen : List NodeId) : Prop :=
  ∃ enough, ∀ fuel, enough ≤ fuel → Walk.trail policy fuel n w = some (w', seen)

/-- The same of visiting children. -/
def EndsBelow (policy : Policy) (n : NodeId) (p : Progress) (w w' : Walk σ)
    (p' : Progress) (seen : List NodeId) : Prop :=
  ∃ enough, ∀ fuel, enough ≤ fuel → trailBelow policy fuel n p w =
    some (w', p', seen)

theorem Ends.visit
    (h : EndsBelow policy n {} (w.dispatch policy .beforeChildren n) v p seen) :
    Ends policy n w (v.dispatch policy .afterChildren n) (n :: seen) := by
  obtain ⟨enough, henough⟩ := h
  refine ⟨enough + 1, fun fuel hfuel => ?_⟩
  obtain ⟨fuel, rfl⟩ := Nat.exists_eq_add_of_le' (Nat.one_le_of_lt hfuel)
  rw [Walk.trail, henough fuel (Nat.le_of_succ_le_succ hfuel), Option.map_some]

theorem EndsBelow.done (h : w.tree.isAttached n = true)
    (hnext : p.next? (w.tree.children n) = none) :
    EndsBelow policy n p w w p [] := by
  refine ⟨1, fun fuel hfuel => ?_⟩
  obtain ⟨fuel, rfl⟩ := Nat.exists_eq_add_of_le' hfuel
  simp [trailBelow, h, hnext]

/-- A loop ends if the next visit does, and the rest after it. -/
theorem EndsBelow.next (h : w.tree.isAttached n = true)
    (hnext : p.next? (w.tree.children n) = some child)
    (hvisit : Ends policy child w v seen₁) (hv : v.tree.isAttached n = true)
    (hrest : EndsBelow policy n (p.after child (v.tree.parent? child == some n)
      (w.tree.children n) (v.tree.children n)) v w' p' seen₂) :
    EndsBelow policy n p w w' p' (seen₁ ++ seen₂) := by
  obtain ⟨enough₁, henough₁⟩ := hvisit
  obtain ⟨enough₂, henough₂⟩ := hrest
  refine ⟨max enough₁ enough₂ + 1, fun fuel hfuel => ?_⟩
  obtain ⟨fuel, rfl⟩ := Nat.exists_eq_add_of_le' (Nat.one_le_of_lt hfuel)
  have hfuel' := Nat.le_of_succ_le_succ hfuel
  rw [trailBelow_next h hnext,
    henough₁ fuel (Nat.le_trans (Nat.le_max_left _ _) hfuel'),
    Option.bind_some, if_pos hv,
    henough₂ fuel (Nat.le_trans (Nat.le_max_right _ _) hfuel'), Option.map_some]

/-- A walk that ends can be run. -/
theorem Ends.run (h : Ends policy Tree.root w w' seen) :
    ∃ enough, ∀ fuel, enough ≤ fuel →
      Walk.run policy fuel w = some (w'.finish policy) := by
  obtain ⟨enough, henough⟩ := h
  refine ⟨enough, fun fuel hfuel => ?_⟩
  rw [Walk.run, ← (trail_fst policy fuel).1, henough fuel hfuel]
  rfl

end TreeLint.Walk
