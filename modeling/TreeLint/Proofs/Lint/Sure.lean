import TreeLint.Proofs.Lint.Upkeep
import TreeLint.Proofs.Tree.SameFile

/-!
# Programs that are sure of what they do

A program is sure of its corrections on a tree if each of them succeeds,
whichever of them are allowed (`Hook.Sure`). What holds in the end is part
of the notion, and is passed on from one request to the next, so that the
parts of a program can be looked at one by one (`Sure.andThen`).

A call of such a program ends with what it promises, unless the policy
breaks down over one of its reports. Then it is taken back, and the
breakdown is the only failure there is (`ActiveRule.invoke_sure`).

Specification, §4.3: a correction is run only if it is allowed, so a program
has to be right either way.
-/

namespace TreeLint

variable {σ : Type} {policy : Policy} {rule : RuleId} {post post' : Tree → Prop}
  {t : Tree}

namespace Hook

/-- On this tree all corrections succeed, and `post` holds of the tree the
program ends with. -/
def Sure (post : Tree → Prop) : Hook σ → Tree → Prop
  | .finish _, t => post t
  | .crash _, _ => False
  | .inspect k, t => (k t).Sure post t
  | .perform _ _, _ => False
  | .emit _ _ _ k, t => ∀ d, (k d).Sure post t
  | .emitAndFix _ _ fix k, t =>
    (k .deny none).Sure post t ∧ ∃ u memory,
      fix.run t.begin = (u, .finished memory none) ∧
      (k .allow (some memory)).Sure post (u.commit t.checkpoint)
  | .note _ _ k, t => k.Sure post t

variable {h : Hook σ} {next : σ → Hook σ}

theorem sure_inspect {k : Tree → Hook σ} :
    (inspect k).Sure post t ↔ (k t).Sure post t :=
  Iff.rfl

/-- A weaker end is as sure. -/
theorem Sure.mono (hh : h.Sure post t) (hpost : ∀ u, post u → post' u) :
    h.Sure post' t := by
  induction h generalizing t with
  | finish => exact hpost t hh
  | crash | perform => exact hh.elim
  | inspect k ih => exact ih t hh
  | emit o m f k ih => exact fun d => ih d (hh d)
  | emitAndFix o m fix k ih =>
    obtain ⟨hdeny, u, memory, hfix, hallow⟩ := hh
    exact ⟨ih _ _ hdeny, u, memory, hfix, ih _ _ hallow⟩
  | note e d k ih => exact ih hh

/-- Programs one after the other: the second one starts where the first one
ends. -/
theorem Sure.andThen
    (hh : h.Sure (fun u => ∀ memory, (next memory).Sure post u) t) :
    (h.andThen next).Sure post t := by
  induction h generalizing t with
  | finish memory => exact hh memory
  | crash | perform => exact hh.elim
  | inspect k ih => exact ih t hh
  | emit o m f k ih => exact fun d => ih d (hh d)
  | emitAndFix o m fix k ih =>
    obtain ⟨hdeny, u, memory, hfix, hallow⟩ := hh
    exact ⟨ih _ _ hdeny, u, memory, hfix, ih _ _ hallow⟩
  | note e d k ih => exact ih hh

/-- A step for every item keeps an invariant that says what is still to be
done. -/
theorem sure_each {α : Type} {step : α → σ → Hook σ}
    {inv : List α → Tree → Prop}
    (hstep : ∀ a as u memory, inv (a :: as) u → (step a memory).Sure (inv as) u)
    {as : List α} (memory : σ) (hinv : inv as t) :
    (each step as memory).Sure (inv []) t := by
  induction as generalizing t memory with
  | nil => exact hinv
  | cons a as ih =>
    exact ((hstep a as t memory hinv).mono fun u hu memory =>
      ih memory hu).andThen

theorem sure_correct {ops : List Op} {u : Tree} {memory : σ} (offset : Nat)
    (message : String) (hdeny : post t)
    (hfix : (Fix.ofOps memory ops).run t.begin = (u, .finished memory none))
    (hallow : post (u.commit t.checkpoint)) :
    (correct offset message ops memory).Sure post t :=
  ⟨hdeny, u, memory, hfix, hallow⟩

/-- However it is run, a program that is sure ends with what it promises or
because the policy breaks down, and no correction fails. -/
theorem Sure.runs {s s' : Scene} {ds : List Deed} {e : HookEnd σ}
    (hh : h.Sure post s.tree) (hr : h.Runs policy rule s ds s' e) :
    s'.failures = s.failures ∧ (∀ memory, e = .finished memory → post s'.tree) ∧
      ∀ reason, e = .crashed reason → ∃ asked offset, policy asked rule offset =
        .crash reason := by
  -- One case for each way a request can be answered. A correction that is
  -- allowed succeeds, so those that fail are ruled out.
  induction hr with
  | finish => exact ⟨rfl, fun _ _ => hh, fun _ he => nomatch he⟩
  | crash | perform => exact hh.elim
  | inspect _ ih => exact ih hh
  | note _ ih => exact ih hh
  | emitCrashed hask | askCrashed hask =>
    refine ⟨rfl, fun _ he => (nomatch he), fun reason he =>
      ⟨_, _, hask.trans ?_⟩⟩
    cases he
    rfl
  | emit _ _ ih => exact ih (hh _)
  | denied _ _ ih => exact ih hh.1
  | fixCrashed _ hfix =>
    obtain ⟨-, u, memory, hrun, -⟩ := hh
    cases hfix.run_eq.symm.trans hrun
  | fixed _ hfix _ ih =>
    obtain ⟨-, u, memory, hrun, hallow⟩ := hh
    cases hfix.run_eq.symm.trans hrun
    exact ih hallow
  | abandoned _ hfix =>
    obtain ⟨-, u, memory, hrun, -⟩ := hh
    cases hfix.run_eq.symm.trans hrun

end Hook

/-! ## Calls -/

/-- A tree to which only nodes on their own were added has the same document. -/
theorem Tree.Sound.sameFile_of_append {u : Tree} {fresh : Forest} (ht : t.Sound)
    (hu : u.Sound) (hforest : u.forest = t.forest.append fresh) :
    t.SameFile u ∧ t.count ≤ u.count := by
  constructor
  · refine ⟨ht, hu, Tree.subtree_of_subtree? ?_⟩
    rw [hforest, Forest.subtree?_append, ht.subtree?_root]
    rfl
  · refine Nat.le_of_not_lt fun hlt => ?_
    have hmem : u.count ∈ t.forest.ids := (ht.mem_ids u.count).mpr hlt
    have hmem' : u.count ∈ u.forest.ids := by
      rw [hforest, Forest.ids_append]
      exact List.mem_append_left _ hmem
    exact Nat.lt_irrefl _ ((hu.mem_ids u.count).mp hmem')

namespace ActiveRule

variable {Good : Tree → String → Fix σ → Prop} {r : ActiveRule σ} {s : Scene}
  {phase : Phase} {node : Option NodeId}

/-- A call of a rule that is sure of its corrections ends with what it
promises, or the policy breaks down and the call is taken back. -/
theorem invoke_sure (hv : r.visitor.CorrectsBy Good) (ht : s.tree.Consistent)
    (hn : node.all s.tree.isAttached = true)
    (hh : (r.hook phase node).Sure post s.tree.begin) :
    (r.invoke policy phase node s).2.tree.Consistent ∧
      ((r.invoke policy phase node s).1.failed = r.failed ∧
          (r.invoke policy phase node s).2.failures = s.failures ∧
          (∃ u, post u ∧ (r.invoke policy phase node s).2.tree =
            u.commit s.tree.checkpoint) ∨
        ∃ reason, (r.invoke policy phase node s).1.failed = true ∧
          (∃ asked offset, policy asked r.id offset = .crash reason) ∧
          s.tree.SameFile (r.invoke policy phase node s).2.tree ∧
          s.tree.count ≤ (r.invoke policy phase node s).2.tree.count ∧
          (r.invoke policy phase node s).2.failures = s.failures ++
            [⟨r.id,
              node.elim 0 (r.invoke policy phase node s).2.tree.startOffset,
              phase, reason⟩]) := by
  obtain ⟨ds, after, e, hr⟩ :=
    (r.hook phase node).exists_runs policy r.id { s with tree := s.tree.begin }
  obtain ⟨hfailures, hend, hcrash⟩ := Hook.Sure.runs hh hr
  obtain ⟨fresh, hscat, hin⟩ :=
    hr.within (hook_correctsBy hv phase node) hn (Tree.Within.begin ht)
  cases e with
  | finished memory =>
    rw [invoke_of_finish hr]
    exact ⟨hin.consistent.close _,
      Or.inl ⟨rfl, hfailures, after.tree, hend memory rfl, rfl⟩⟩
  | crashed reason =>
    rw [invoke_of_crash hr]
    obtain ⟨hforest, -⟩ := hin.rollback ht
    have hu := (hin.consistent.unwind s.tree.checkpoint.mark).close
      s.tree.checkpoint
    obtain ⟨hfile, hcount⟩ := ht.sound.sameFile_of_append hu.sound hforest
    refine ⟨hu, Or.inr ⟨reason, rfl, hcrash reason rfl, hfile, hcount, ?_⟩⟩
    simp only [recover, hfailures]

end ActiveRule

end TreeLint
