import TreeLint.Lint.Walk
import Mathlib.Data.List.Basic

/-!
# A walk is a sequence of turns

Whatever the rules do to the tree, a walk goes from occasion to occasion:
before the children of a node, after them, and once at the end. On each
occasion every rule has its turn, in order. A turn is a call of the rule,
unless the rule crashed before or the node is no longer attached; then
nothing happens in it (`Walk.turn`).

`run_eq_turns` says so of every walk that ends. What a turn preserves
therefore holds at the end of every walk (`turns_induction`), and nothing
else about the order in which nodes are visited is needed for that.

Specification, §4.3: each rule in order, for a node that is still attached.
-/

namespace TreeLint

/-- A turn of a rule: the place of the rule among the others, and what it
would be called for. -/
structure Turn where
  rule : Nat
  phase : Phase
  node : Option NodeId
deriving DecidableEq, Repr

/-- The turns of all rules, in order, on one occasion after the other. -/
def Turn.rounds (rules : Nat)
    (occasions : List (Phase × Option NodeId)) : List Turn :=
  occasions.flatMap fun o => (List.range rules).map fun i => ⟨i, o.1, o.2⟩

theorem ActiveRule.id_invoke {σ : Type} {policy : Policy} {phase : Phase}
    {node : Option NodeId} (r : ActiveRule σ) {s : Scene} :
    (r.invoke policy phase node s).1.id = r.id := by
  unfold ActiveRule.invoke
  split <;> rfl

namespace Walk

variable {σ : Type} {policy : Policy} {w : Walk σ}

/-- Let a rule have its turn. -/
def turn (policy : Policy) (w : Walk σ) (t : Turn) : Walk σ :=
  match w.rules[t.rule]? with
  | none => w
  | some r =>
    if r.failed || !t.node.all w.tree.isAttached then w
    else
      { rules := w.rules.set t.rule (r.invoke policy t.phase t.node w.scene).1
        scene := (r.invoke policy t.phase t.node w.scene).2
        calls := w.calls ++ [⟨r.id, t.phase, t.node⟩] }

/-- Turns one after the other. -/
def turns (policy : Policy) (w : Walk σ) (ts : List Turn) : Walk σ :=
  ts.foldl (turn policy) w

/-! ## One turn -/

/-- Nobody is called for a node that is detached (specification, §4.3). -/
theorem turn_of_detached {t : Turn} (h : t.node.all w.tree.isAttached = false) :
    w.turn policy t = w := by
  unfold turn
  split
  · rfl
  · simp [h]

theorem turn_of_failed {t : Turn} {r : ActiveRule σ}
    (hr : w.rules[t.rule]? = some r) (hf : r.failed = true) :
    w.turn policy t = w := by
  simp [turn, hr, hf]

theorem turn_of_due {t : Turn} {r : ActiveRule σ}
    (hr : w.rules[t.rule]? = some r) (hf : r.failed = false)
    (hn : t.node.all w.tree.isAttached = true) :
    w.turn policy t =
      { rules := w.rules.set t.rule (r.invoke policy t.phase t.node w.scene).1
        scene := (r.invoke policy t.phase t.node w.scene).2
        calls := w.calls ++ [⟨r.id, t.phase, t.node⟩] } := by
  simp [turn, hr, hf, hn]

/-- Nothing happens in a turn, or a rule is called. -/
theorem turn_cases (policy : Policy) (w : Walk σ) (t : Turn) :
    w.turn policy t = w ∨ ∃ r, w.rules[t.rule]? = some r ∧ r.failed = false ∧
      t.node.all w.tree.isAttached = true ∧
      w.turn policy t =
        { rules := w.rules.set t.rule (r.invoke policy t.phase t.node w.scene).1
          scene := (r.invoke policy t.phase t.node w.scene).2
          calls := w.calls ++ [⟨r.id, t.phase, t.node⟩] } := by
  cases hr : w.rules[t.rule]? with
  | none => exact Or.inl (by simp [turn, hr])
  | some r =>
    cases hf : r.failed with
    | true => exact Or.inl (turn_of_failed hr hf)
    | false =>
      cases hn : t.node.all w.tree.isAttached with
      | false => exact Or.inl (turn_of_detached hn)
      | true => exact Or.inr ⟨r, rfl, hf, rfl, turn_of_due hr hf hn⟩

@[simp] theorem length_turn (policy : Policy) (w : Walk σ) (t : Turn) :
    (w.turn policy t).rules.length = w.rules.length := by
  rcases turn_cases policy w t with h | ⟨r, -, -, -, h⟩ <;> simp [h]

theorem ids_turn (policy : Policy) (w : Walk σ) (t : Turn) :
    (w.turn policy t).rules.map ActiveRule.id = w.rules.map ActiveRule.id := by
  rcases turn_cases policy w t with h | ⟨r, hr, -, -, h⟩
  · rw [h]
  · obtain ⟨hi, rfl⟩ := List.getElem?_eq_some_iff.mp hr
    rw [h, List.map_set, ActiveRule.id_invoke, ← List.map_set,
      List.set_getElem_self]

/-- A turn of one rule leaves the others as they are. -/
theorem rules_turn_of_ne {t : Turn} {j : Nat} (hj : j ≠ t.rule) :
    (w.turn policy t).rules[j]? = w.rules[j]? := by
  rcases turn_cases policy w t with h | ⟨r, -, -, -, h⟩
  · rw [h]
  · rw [h, List.getElem?_set_ne hj.symm]

/-! ## Turns one after the other -/

@[simp] theorem turns_nil (w : Walk σ) : w.turns policy [] = w := rfl

@[simp] theorem turns_cons (w : Walk σ) (t : Turn) (ts : List Turn) :
    w.turns policy (t :: ts) = (w.turn policy t).turns policy ts := rfl

theorem turns_append (w : Walk σ) (ts us : List Turn) :
    w.turns policy (ts ++ us) = (w.turns policy ts).turns policy us :=
  List.foldl_append

@[simp] theorem length_turns (w : Walk σ) (ts : List Turn) :
    (w.turns policy ts).rules.length = w.rules.length := by
  induction ts generalizing w with
  | nil => rfl
  | cons t ts ih => rw [turns_cons, ih, length_turn]

theorem ids_turns (w : Walk σ) (ts : List Turn) :
    (w.turns policy ts).rules.map ActiveRule.id =
      w.rules.map ActiveRule.id := by
  induction ts generalizing w with
  | nil => rfl
  | cons t ts ih => rw [turns_cons, ih, ids_turn]

/-- What every turn preserves, any number of them does. -/
theorem turns_induction {P : Walk σ → Prop}
    (hstep : ∀ w t, P w → P (w.turn policy t)) (hw : P w) (ts : List Turn) :
    P (w.turns policy ts) := by
  induction ts generalizing w with
  | nil => exact hw
  | cons t ts ih => exact ih (hstep w t hw)

/-- While the node of an occasion is detached nothing happens. -/
theorem turns_of_detached {phase : Phase} {node : Option NodeId}
    (h : node.all w.tree.isAttached = false) (is : List Nat) :
    w.turns policy (is.map fun i => ⟨i, phase, node⟩) = w := by
  induction is with
  | nil => rfl
  | cons i is ih => rw [List.map_cons, turns_cons, turn_of_detached h, ih]

/-! ## Walks -/

/-- Calling rules one after the other is giving each its turn. The rules in
`called` had theirs. -/
theorem turns_eq_callEach (policy : Policy) (phase : Phase)
    (node : Option NodeId) (called rs : List (ActiveRule σ)) (w : Walk σ)
    (hw : w.rules = called ++ rs) :
    w.turns policy ((List.range' called.length rs.length).map fun i =>
      ⟨i, phase, node⟩) =
      { rules := called ++ (callEach policy phase node
        (fun t => node.all t.isAttached) rs w.scene).1
        scene := (callEach policy phase node (fun t => node.all t.isAttached) rs
          w.scene).2.1
        calls := w.calls ++
          (callEach policy phase node (fun t => node.all t.isAttached) rs
            w.scene).2.2 } := by
  -- By induction on the rules still to be called; `called` are those that
  -- had their turn, which fixes the index of the next.
  induction rs generalizing called w with
  | nil => simp [callEach, ← hw]
  | cons r rs ih =>
    have hr : w.rules[called.length]? = some r := by simp [hw]
    rw [List.length_cons, List.range'_succ, List.map_cons, turns_cons]
    -- Once the node is detached nobody is called for it any more.
    cases hn : node.all w.tree.isAttached with
    | false =>
      have hstop : node.all w.scene.tree.isAttached = false := hn
      rw [turn_of_detached hn, turns_of_detached hn]
      simp [callEach, hstop, ← hw]
    | true =>
      have hgo : node.all w.scene.tree.isAttached = true := hn
      cases hf : r.failed with
      | true =>
        have hnext := ih (called ++ [r]) w (by simp [hw])
        rw [turn_of_failed hr hf]
        simpa [callEach, hgo, hf] using hnext
      | false =>
        have hset : w.rules.set called.length
            (r.invoke policy phase node w.scene).1 =
            called ++ [(r.invoke policy phase node w.scene).1] ++ rs := by
          simp [hw]
        have hid : (r.invoke policy phase node w.scene).1.id =
            r.id := r.id_invoke
        rw [turn_of_due hr hf hn]
        have hnext := ih (called ++ [(r.invoke policy phase node w.scene).1])
          { rules := w.rules.set called.length (r.invoke policy phase
            node w.scene).1
            scene := (r.invoke policy phase node w.scene).2
            calls := w.calls ++ [⟨r.id, phase, node⟩] } hset
        simpa [callEach, hgo, hf, hid] using hnext

theorem rounds_append (k : Nat) (os ps : List (Phase × Option NodeId)) :
    Turn.rounds k (os ++ ps) = Turn.rounds k os ++ Turn.rounds k ps :=
  List.flatMap_append

/-- **Calling all rules for a node is a turn of each,** in order. -/
theorem dispatch_eq_turns (policy : Policy) (phase : Phase) (n : NodeId)
    (w : Walk σ) :
    w.dispatch policy phase n =
      w.turns policy (Turn.rounds w.rules.length [(phase, some n)]) := by
  have h := turns_eq_callEach policy phase (some n) [] w.rules w rfl
  simp only [List.length_nil, ← List.range_eq_range', List.nil_append] at h
  simp only [Turn.rounds, List.flatMap_cons, List.flatMap_nil, List.append_nil]
  exact h.symm

theorem length_dispatch (policy : Policy) (phase : Phase) (n : NodeId)
    (w : Walk σ) :
    (w.dispatch policy phase n).rules.length = w.rules.length := by
  rw [dispatch_eq_turns, length_turns]

theorem finish_eq_turns (policy : Policy) (w : Walk σ) :
    w.finish policy = w.turns policy
      (Turn.rounds w.rules.length [(.afterLastNode, none)]) := by
  have h := turns_eq_callEach policy .afterLastNode none [] w.rules w rfl
  simp only [List.length_nil, ← List.range_eq_range', List.nil_append] at h
  simp only [Turn.rounds, List.flatMap_cons, List.flatMap_nil, List.append_nil]
  exact h.symm

/-- Let all rules have their turns on occasions of nodes. -/
def attend (policy : Policy) (w : Walk σ)
    (occasions : List (Phase × NodeId)) : Walk σ :=
  w.turns policy (Turn.rounds w.rules.length (occasions.map fun o =>
    (o.1, some o.2)))

@[simp] theorem attend_nil (w : Walk σ) : w.attend policy [] = w := rfl

theorem attend_append (w : Walk σ) (os ps : List (Phase × NodeId)) :
    w.attend policy (os ++ ps) = (w.attend policy os).attend policy ps := by
  simp only [attend, List.map_append, rounds_append, turns_append, length_turns]

theorem attend_cons (w : Walk σ) (o : Phase × NodeId)
    (os : List (Phase × NodeId)) :
    w.attend policy (o :: os) =
      (w.dispatch policy o.1 o.2).attend policy os := by
  rw [dispatch_eq_turns, ← List.singleton_append, attend_append]
  rfl

/-- `w'` is reached from `w` by rounds of turns before or after the children
of nodes. -/
def Rounds (policy : Policy) (w w' : Walk σ) : Prop :=
  ∃ occasions : List (Phase × NodeId),
    (∀ o ∈ occasions, o.1 = .beforeChildren ∨ o.1 = .afterChildren) ∧
      w' = w.attend policy occasions

theorem Rounds.refl (w : Walk σ) : Rounds policy w w := ⟨[], by simp, rfl⟩

theorem Rounds.trans {w₁ w₂ w₃ : Walk σ} (h : Rounds policy w₁ w₂)
    (h' : Rounds policy w₂ w₃) :
    Rounds policy w₁ w₃ := by
  obtain ⟨os, hos, rfl⟩ := h
  obtain ⟨ps, hps, rfl⟩ := h'
  refine ⟨os ++ ps, fun o ho => ?_, (attend_append w₁ os ps).symm⟩
  exact (List.mem_append.mp ho).elim (hos o) (hps o)

theorem Rounds.length {w' : Walk σ} (h : Rounds policy w w') :
    w'.rules.length = w.rules.length := by
  obtain ⟨os, -, rfl⟩ := h
  exact length_turns w _

theorem rounds_dispatch {phase : Phase}
    (hphase : phase = .beforeChildren ∨ phase = .afterChildren) (n : NodeId)
    (w : Walk σ) : Rounds policy w (w.dispatch policy phase n) :=
  ⟨[(phase, n)], by simpa using hphase, dispatch_eq_turns policy phase n w⟩

/-- Visiting a node, and visiting children, is rounds of turns; by induction
on the fuel, which both share. -/
theorem rounds_visit (policy : Policy) (fuel : Nat) :
    (∀ n (w w' : Walk σ), Walk.visit policy fuel n w = some w' →
      Rounds policy w w') ∧
      ∀ n p (w w' : Walk σ) p', Walk.visitChildren policy fuel n p w =
        some (w', p') →
        Rounds policy w w' := by
  -- Together for visits and loops over children, by induction on the fuel.
  induction fuel with
  | zero =>
      exact ⟨fun n w w' h => by simp [Walk.visit] at h, fun n p w w' p' h => by
      simp [Walk.visitChildren] at h⟩
  | succ fuel ih =>
    constructor
    · intro n w w' h
      simp only [Walk.visit] at h
      split at h
      · cases h
      · next w₁ p hkids =>
        cases h
        have hbefore : Rounds policy w _ := rounds_dispatch (.inl rfl) n w
        exact (hbefore.trans (ih.2 n {} _ _ p hkids)).trans
          (rounds_dispatch (.inr rfl) n w₁)
    · intro n p w w' p' h
      simp only [Walk.visitChildren] at h
      split at h
      · cases h
        exact .refl w
      · split at h
        · cases h
          exact .refl w
        · next child hnext =>
          split at h
          · cases h
          · next after hvisit =>
            have hchild := ih.1 child w after hvisit
            split at h
            · cases h
              exact hchild
            · exact hchild.trans (ih.2 n _ after w' p' h)

/-- A walk visits nodes and then lets every rule have a last turn. -/
theorem run_eq_last {fuel : Nat} {w' : Walk σ}
    (h : Walk.run policy fuel w = some w') :
    ∃ v, Rounds policy w v ∧
      w' =
      v.turns policy (Turn.rounds v.rules.length [(.afterLastNode, none)]) := by
  simp only [Walk.run, Option.map_eq_some_iff] at h
  obtain ⟨v, hvisit, rfl⟩ := h
  exact ⟨v, (rounds_visit policy fuel).1 _ _ _ hvisit, finish_eq_turns policy v⟩

/-- **Every walk is rounds of turns.** -/
theorem run_eq_turns {fuel : Nat} {w' : Walk σ}
    (h : Walk.run policy fuel w = some w') :
    ∃ occasions, w' = w.turns policy
      (Turn.rounds w.rules.length occasions) := by
  obtain ⟨v, ⟨occasions, -, rfl⟩, rfl⟩ := run_eq_last h
  exact ⟨_, by rw [attend, length_turns, ← turns_append, ← rounds_append]⟩

end Walk

end TreeLint
