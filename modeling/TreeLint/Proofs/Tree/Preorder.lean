import TreeLint.Proofs.Forest.Order
import TreeLint.Proofs.Tree.Document
import TreeLint.Proofs.Tree.Reachable

/-!
# Down and up a tree

The nodes below a node can be listed with a stack: take the last node from
it, list it, and put its children on the stack in reverse, so that the first
of them comes next (`Descent`). What is listed already and what stands below
the nodes on the stack together are always the same list (`Descent.Toward`),
and every turn lists one node more. So the stack becomes empty, after as
many turns as there are nodes to list (`Descent.Toward.run_eq`), and the
list is the pre-order: the node, and then the pre-order of each of its
children (`Tree.Sound.descendants_eq`).

The other way goes up from parent to parent, and ends as well
(`Tree.Sound.climb_eq`). `descent_agrees` puts the two together: a node is
reached on the way down from another exactly if the other is reached on the
way up from it.

Specification, §3.
-/

namespace TreeLint

/-! ## Down with a stack -/

/-- A list of the nodes below a node in the making: the nodes on a stack,
the next one last, and those listed so far. -/
structure Descent where
  stack : List NodeId
  listed : List NodeId := []

namespace Descent

/-- One turn: the last node of the stack is listed, and its children take
its place in reverse. With an empty stack there is nothing to do. -/
def step (t : Tree) (d : Descent) : Option Descent :=
  match d.stack.getLast? with
  | none => none
  | some n => some ⟨d.stack.dropLast ++ (t.children n).reverse, d.listed ++ [n]⟩

/-- What is listed when the stack is empty, if it becomes empty in no more
than some number of turns. -/
def run (t : Tree) (turns : Nat) (d : Descent) : Option (List NodeId) :=
  match d.step t, turns with
  | none, _ => some d.listed
  | some _, 0 => none
  | some next, turns + 1 => next.run t turns

end Descent

namespace Tree

variable {t : Tree} {n m p : NodeId}

/-- The nodes above a node, from parent to parent, if there are no more than
some number of steps to go. -/
def climb (t : Tree) (steps : Nat) (n : NodeId) : Option (List NodeId) :=
  match t.parent? n, steps with
  | none, _ => some []
  | some _, 0 => none
  | some p, steps + 1 => (t.climb steps p).map (p :: ·)

theorem descendants_sublist (t : Tree) (n : NodeId) :
    (t.descendants n).Sublist t.forest.ids := by
  rw [descendants, subtree]
  cases hs : t.forest.subtree? n with
  | none => exact List.nil_sublist _
  | some s => exact Forest.ids_subtree?_sublist hs

namespace Sound

/-- The pre-order of a node is the node and then the pre-order of each child. -/
theorem descendants_eq (h : t.Sound) (hn : t.contains n = true) :
    t.descendants n = n :: (t.children n).flatMap t.descendants := by
  obtain ⟨s, hs⟩ := Forest.exists_subtree (contains_iff_mem.mp hn)
  have hbelow : (t.forest.offspring n).ids =
      (t.children n).flatMap t.descendants :=
    Forest.flatMap_offspring rfl Forest.ids_append h.nodup n
  have hkids : t.forest.offspring n = s.rootChildren := by
    rw [Forest.offspring, hs, Option.getD_some]
  rw [← hbelow, hkids, descendants, subtree_of_subtree? hs]
  rcases Forest.eq_of_roots_eq_singleton (Forest.roots_subtree? hs) with ⟨k, x,
    rfl⟩ | ⟨k, c, rfl⟩
  · rfl
  · simp [Forest.ids, Forest.rootChildren]

theorem nodup_descendants (h : t.Sound) (n : NodeId) :
    (t.descendants n).Nodup :=
  h.nodup.sublist (t.descendants_sublist n)

/-- There are no more nodes below a node than nodes were ever created. -/
theorem length_descendants_le (h : t.Sound) (n : NodeId) :
    (t.descendants n).length ≤ t.count := by
  have hall : t.forest.ids ⊆ List.range t.count := fun m hm =>
    List.mem_range.mpr ((h.mem_ids m).mp hm)
  calc (t.descendants n).length
    _ ≤ t.forest.ids.length := (t.descendants_sublist n).length_le
    _ ≤ (List.range t.count).length :=
      (List.subperm_of_subset h.nodup hall).length_le
    _ = t.count := List.length_range

theorem contains_child (h : t.Sound) (hm : m ∈ t.children n) :
    t.contains m = true :=
  h.contains_iff.mpr (h.parent_mem (h.parent?_eq_some_iff.mpr hm)).1

/-- Going up from parent to parent ends, with all nodes above. -/
theorem climb_eq (h : t.Sound) (steps : Nat) (n : NodeId) :
    t.climb steps n = if (t.ancestors n).length ≤
      steps then some (t.ancestors n) else none := by
  induction steps generalizing n with
  | zero =>
    unfold climb
    cases hp : t.parent? n with
    | none => simp [ancestors_of_parent?_eq_none hp]
    | some p => simp [ancestors_of_parent? h.nodup hp]
  | succ steps ih =>
    unfold climb
    cases hp : t.parent? n with
    | none => simp [ancestors_of_parent?_eq_none hp]
    | some p =>
      simp only [ancestors_of_parent? h.nodup hp, List.length_cons,
        Nat.add_le_add_iff_right, ih p]
      split <;> rfl

end Sound

end Tree

namespace Descent

variable {t : Tree} {d next : Descent} {goal : List NodeId} {n : NodeId}

/-- What is listed already and what stands below the nodes on the stack make
up the list `goal`. -/
structure Toward (t : Tree) (goal : List NodeId) (d : Descent) : Prop where
  exist : ∀ n ∈ d.stack, t.contains n = true
  outcome : d.listed ++ d.stack.reverse.flatMap t.descendants = goal

theorem step_eq_none_iff : d.step t = none ↔ d.stack = [] := by
  rw [step, ← List.getLast?_eq_none_iff]
  cases d.stack.getLast? <;> simp

/-- A turn takes a node from the stack. -/
theorem step_eq_some (h : d.step t = some next) :
    ∃ n stack, d.stack = stack ++ [n] ∧
    next = ⟨stack ++ (t.children n).reverse, d.listed ++ [n]⟩ := by
  rw [step] at h
  cases hlast : d.stack.getLast? with
  | none => simp [hlast] at h
  | some n =>
    rw [hlast] at h
    obtain ⟨stack, hstack⟩ := List.getLast?_eq_some_iff.mp hlast
    refine ⟨n, stack, hstack, ?_⟩
    rw [← Option.some.inj h, hstack, List.dropLast_concat]

namespace Toward

theorem start (hn : t.contains n = true) :
    Toward t (t.descendants n) ⟨[n], []⟩ where
  exist := by simpa using hn
  outcome := by simp

/-- A turn keeps the goal and lists one node more. -/
theorem step (hd : Toward t goal d) (h : t.Sound)
    (hstep : d.step t = some next) :
    Toward t goal next ∧ next.listed.length = d.listed.length + 1 := by
  obtain ⟨n, stack, hstack, rfl⟩ := step_eq_some hstep
  have hn : t.contains n = true := hd.exist n (by simp [hstack])
  refine ⟨⟨fun m hm => ?_, ?_⟩, by simp⟩
  · rcases List.mem_append.mp hm with hm | hm
    · exact hd.exist m (by simp [hstack, hm])
    · exact h.contains_child (List.mem_reverse.mp hm)
  · -- the children come off the stack in order, before what was under them
    rw [← hd.outcome, hstack, List.reverse_append, List.reverse_append,
      List.reverse_reverse, List.reverse_singleton,
      List.singleton_append, List.flatMap_cons, List.flatMap_append,
        h.descendants_eq hn]
    simp

/-- No more is listed than there is to list, so the descent ends. -/
theorem length_le (hd : Toward t goal d) : d.listed.length ≤ goal.length := by
  rw [← hd.outcome, List.length_append]
  exact Nat.le_add_right _ _

/-- With an empty stack the goal is reached. -/
theorem stop (hd : Toward t goal d) (hstop : d.step t = none) :
    d.listed = goal := by
  have hout := hd.outcome
  rw [step_eq_none_iff.mp hstop] at hout
  simpa using hout

/-- The stack becomes empty exactly if there are as many turns as nodes to
list. -/
theorem run_eq (hd : Toward t goal d) (h : t.Sound) (turns : Nat) :
    d.run t turns = if goal.length ≤ d.listed.length + turns then some goal
      else none := by
  induction turns generalizing d with
  | zero =>
    unfold run
    cases hstep : d.step t with
    | none => simp [hd.stop hstep]
    | some next =>
      obtain ⟨hnext, hlength⟩ := hd.step h hstep
      have hmore : ¬goal.length ≤ d.listed.length + 0 := by
        have := hnext.length_le
        omega
      simp only [if_neg hmore]
  | succ turns ih =>
    unfold run
    cases hstep : d.step t with
    | none => simp [hd.stop hstep]
    | some next =>
      obtain ⟨hnext, hlength⟩ := hd.step h hstep
      simp only [ih hnext, hlength, Nat.add_assoc, Nat.add_comm 1 turns]

end Toward

end Descent

open TreeLint.Tree (root)

/-- **Down and up agree.** In every tree, listing the nodes below a node
with a stack ends, after as many turns as there are nodes to list, and these
are no more than were ever created. The list is the node and then the
pre-order of each of its children, in order, with nothing in it twice. It
holds the node itself and those that have it above them, where the nodes
above are the ones met on the way up from parent to parent, which ends as
well. So the attached nodes are those that are listed from the root.
Specification, §3. -/
theorem descent_agrees {t : Tree} (h : t.Reachable) :
    (∀ n, t.contains n = true →
      (∀ turns, Descent.run t turns ⟨[n], []⟩ =
        if (t.descendants n).length ≤ turns then some (t.descendants n)
        else none) ∧
      (t.descendants n).length ≤ t.count ∧
      t.descendants n = n :: (t.children n).flatMap t.descendants ∧
      (t.descendants n).Nodup ∧
      ∀ m, m ∈ t.descendants n ↔ m = n ∨ n ∈ t.ancestors m) ∧
    (∀ m steps, t.climb steps m =
      if (t.ancestors m).length ≤ steps then some (t.ancestors m) else none) ∧
    ∀ m, t.isAttached m = true ↔ m ∈ t.descendants root := by
  have hs := h.consistent.sound
  refine ⟨fun n hn => ⟨fun turns => ?_, hs.length_descendants_le n,
    hs.descendants_eq hn, hs.nodup_descendants n,
    fun m => hs.mem_descendants_iff_above hn⟩, fun m steps =>
      hs.climb_eq steps m, fun m => hs.mem_document_iff.symm⟩
  simpa using (Descent.Toward.start hn).run_eq hs turns

/-- A block with a block in it was detached, and another change was taken
back. The detached nodes are still listed, in four turns and not in three,
and none of them is attached. -/
theorem descent_agrees_detached :
    let t := Op.run
      (Tree.build .file [.start .block, .token .identifier "a", .start .block,
        .token .identifier "b", .finish,
        .finish, .token .identifier "c"])
      [.detach 1, .begin, .detach 5, .rollback ⟨0, 0⟩]
    t.contains 1 = true ∧ Descent.run t 4 ⟨[1], []⟩ = some [1, 2, 3, 4] ∧
      Descent.run t 3 ⟨[1], []⟩ = none ∧
      4 ∈ t.descendants 1 ∧ t.climb 2 4 = some [3, 1] ∧ ¬t.isAttached 4 = true ∧
          t.isAttached 5 = true := by
  intro t
  have hreach : t.Reachable := ⟨_, _, _, rfl⟩
  obtain ⟨hdown, hup, hattached⟩ := descent_agrees hreach
  obtain ⟨hrun, -, -, -, hmem⟩ := hdown 1 (by decide)
  refine ⟨by decide, (hrun 4).trans (by decide), (hrun 3).trans (by decide),
    (hmem 4).mpr (by decide),
    (hup 4 2).trans (by decide), (hattached 4).not.mpr (by decide),
      (hattached 5).mpr (by decide)⟩

end TreeLint
