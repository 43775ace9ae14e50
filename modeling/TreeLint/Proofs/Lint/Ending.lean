import TreeLint.Proofs.Lint.Frontier
import TreeLint.Proofs.Lint.Sure
import TreeLint.Proofs.Lint.Trail
import Mathlib.Algebra.Order.BigOperators.Group.Finset

/-!
# Walks that come to an end

Rules that insert nodes ahead of a walk can keep it going for ever. Rules
that react as they may (`Visitor.Reacts`) do not: a walk that calls only
such rules ends, visits every composite node once and no node more than
twice (`Walk.Orderly.ends`).

Each visit leaves less to be done. A visit of code uses up one of the two
that there can be for it (`budget`), and the code of a file stays the same.
A visit of white space or of a comment leaves the document alone, so that
there is less of it that was not seen (`unseen`). How many nodes there will
be is never asked, and white space may be put in and taken out at every
visit of code.

Nothing fails on the way but the policy (`Failure.BlamedOn`).

Specification, §4.3: rules change the tree while it is walked, so that the
walk ends is not a matter of course.
-/

namespace TreeLint

variable {σ : Type} {policy : Policy} {atoms : Kind → Bool}
  {rests : Forest → NodeId → Prop} {Good : Tree → String → Fix σ → Prop}
  {t u v : Tree} {phase : Phase} {node : Option NodeId} {w w' : Walk σ}
  {n x : NodeId}

/-! ## What rules may do in a call -/

/-- What a call may do to the document: react to a node before its children,
and nothing otherwise. -/
structure Responds (rests : Forest → NodeId → Prop) (phase : Phase)
    (node : Option NodeId) (t u : Tree) : Prop where
  grows : t.count ≤ u.count
  reaction : ∀ n, phase = .beforeChildren → node = some n →
    Tree.Reaction rests n t u
  still : (phase = .beforeChildren → node = none) → u.document = t.document

/-- In every call a rule is sure of its corrections and does no more than it
may, as long as the file is tidy. -/
structure Visitor.Reacts (atoms : Kind → Bool) (rests : Forest → NodeId → Prop)
    (v : Visitor σ) : Prop where
  before : ∀ n memory t, t.Tidy atoms → n ∈ t.document.ids →
    (v.before n memory).Sure (Tree.Reaction rests n t) t
  after : ∀ n memory t, t.Tidy atoms → n ∈ t.document.ids →
    (v.after n memory).Sure (fun u => u.document = t.document ∧
      t.count ≤ u.count) t
  last : ∀ memory t, t.Tidy atoms →
    (v.last memory).Sure (fun u => u.document = t.document ∧
      t.count ≤ u.count) t

namespace Responds

theorem of_document_eq (ht : t.Sound) (hu : u.Sound)
    (hdoc : u.document = t.document) (hc : t.count ≤ u.count) :
    Responds rests phase node t u where
  grows := hc
  reaction _ _ _ := .of_document_eq ht hu hdoc hc
  still _ := hdoc

/-- A response keeps all code in place but the visited node, which stays
attached. -/
theorem steady (h : Responds rests phase node t u) (ht : t.Sound) (hu : u.Sound)
    (hn : ∀ n, node = some n → n ∈ t.document.ids) :
    t.Steady (fun m => node = some m) u ∧ ∀ n, node = some n →
      n ∈ u.document.ids := by
  by_cases hcall : phase = .beforeChildren → node = none
  · have hdoc := h.still hcall
    exact ⟨.of_document_eq ht hu hdoc h.grows, hdoc ▸ hn⟩
  · obtain ⟨hphase, hsome⟩ := Classical.not_imp.mp hcall
    obtain ⟨n, rfl⟩ := Option.ne_none_iff_exists'.mp hsome
    have hreaction := h.reaction n hphase rfl
    refine ⟨(hreaction.steady ht hu (hn n rfl)).mono fun m hm => hm ▸ rfl,
      fun m hm => ?_⟩
    exact Option.some.inj hm ▸ hreaction.mem ht hu (hn n rfl)

theorem trans (h : Responds rests phase node t u)
    (h' : Responds rests phase node u v) (ht : t.Tidy atoms) (hu : u.Sound)
    (hv : v.Sound) (hn : ∀ n, node = some n → n ∈ t.document.ids) :
    Responds rests phase node t v where
  grows := Nat.le_trans h.grows h'.grows
  reaction n hphase hnode := (h.reaction n hphase hnode).trans
    (h'.reaction n hphase hnode) ht.sound hu hv
    (hn n hnode) (ht.isCode_of_composite (hn n hnode))
  still hcall := (h'.still hcall).trans (h.still hcall)

end Responds

/-- The policy broke down over a report of the rule. -/
def Failure.BlamedOn (policy : Policy) (f : Failure) : Prop :=
  ∃ asked offset, policy asked f.rule offset = .crash f.message

namespace ActiveRule

variable {r : ActiveRule σ} {s : Scene}

/-- A rule that reacts as it may responds as it may, whichever corrections
are allowed. -/
theorem hook_sure (h : r.visitor.Reacts atoms rests) (ht : t.Tidy atoms)
    (hn : ∀ n, node = some n → n ∈ t.document.ids) :
    (r.hook phase node).Sure (Responds rests phase node t) t := by
  unfold hook
  split
  · refine (h.before _ _ t ht (hn _ rfl)).mono fun u hu =>
      ⟨hu.grows, fun m _ hm => ?_, fun hcall => nomatch hcall rfl⟩
    exact Option.some.inj hm ▸ hu
  · exact (h.after _ _ t ht (hn _ rfl)).mono fun u hu =>
      ⟨hu.2, fun _ hphase => (nomatch hphase), fun _ => hu.1⟩
  · next hbefore _ =>
    exact (h.last _ t ht).mono fun u hu =>
      ⟨hu.2, fun n hphase hnode => (hbefore n hphase hnode).elim, fun _ => hu.1⟩

theorem reacts_invoke (h : r.visitor.Reacts atoms rests) :
    (r.invoke policy phase node s).1.visitor.Reacts atoms rests := by
  unfold invoke
  split
  · exact ⟨h.before, h.after, h.last⟩
  · exact h

/-- A call does what it may, and nothing fails in it but the policy. -/
theorem invoke_responds (h : r.visitor.Reacts atoms rests)
    (hv : r.visitor.CorrectsBy Good) (ht : s.tree.Tidy atoms)
    (hn : node.all s.tree.isAttached = true) :
    (r.invoke policy phase node s).2.tree.Consistent ∧
      Responds rests phase node s.tree (r.invoke policy phase node s).2.tree ∧
      ((r.invoke policy phase node s).2.failures = s.failures ∨
        ∃ f, f.BlamedOn policy ∧ (r.invoke policy phase node s).2.failures =
          s.failures ++ [f]) := by
  have hmem : ∀ n, node = some n → n ∈ s.tree.document.ids := by
    rintro n rfl
    exact ht.sound.mem_document_iff.mpr hn
  have ht' : s.tree.begin.Tidy atoms :=
    ⟨ht.consistent.begin, ht.file, ht.atomic⟩
  obtain ⟨hcons, ⟨-, hfailures, u, hu, htree⟩ | ⟨reason, -, hcrash, hfile,
      hcount, hfailures⟩⟩ :=
    invoke_sure hv ht.consistent hn (hook_sure h ht' hmem)
  · have hcommitted := htree ▸ hcons.sound
    have hsound : u.Sound :=
      ⟨hcommitted.nodup, hcommitted.mem_ids, hcommitted.sorted,
        hcommitted.root_mem⟩
    refine ⟨hcons, ?_, Or.inl hfailures⟩
    rw [htree]
    exact ⟨hu.grows, fun n hphase hnode =>
      (hu.reaction n hphase hnode).closed ht hsound (hmem n hnode) _, hu.still⟩
  · refine ⟨hcons, .of_document_eq ht.sound hcons.sound hfile.document hcount,
      Or.inr ⟨_, ?_, hfailures⟩⟩
    exact hcrash

end ActiveRule

/-! ## What a walk keeps -/

namespace Walk

/-- The file is tidy, all rules do what they may, and nothing failed but the
policy. -/
structure Orderly (policy : Policy) (atoms : Kind → Bool)
    (rests : Forest → NodeId → Prop) (Good : Tree → String → Fix σ → Prop)
    (w : Walk σ) : Prop where
  tidy : w.tree.Tidy atoms
  rules : ∀ r ∈ w.rules, r.visitor.Reacts atoms rests ∧
    r.visitor.CorrectsBy Good
  failures : ∀ f ∈ w.scene.failures, f.BlamedOn policy

namespace Orderly

/-- **Step.** A turn of a rule keeps order, and is a response. -/
theorem turn (h : w.Orderly policy atoms rests Good) (τ : Turn) :
    (w.turn policy τ).Orderly policy atoms rests Good ∧
      Responds rests τ.phase τ.node w.tree (w.turn policy τ).tree := by
  -- A turn is a call only of a rule that is there and has not failed, for a
  -- node that is attached; otherwise nothing happens.
  rcases turn_cases policy w τ with hturn | ⟨r, hr, -, hn, hturn⟩
  · rw [hturn]
    exact ⟨h, .of_document_eq h.tidy.sound h.tidy.sound rfl (Nat.le_refl _)⟩
  · obtain ⟨hreacts, hcorrects⟩ := h.rules r (List.mem_of_getElem? hr)
    obtain ⟨hcons, hresponds, hfailures⟩ :=
      ActiveRule.invoke_responds hreacts hcorrects h.tidy hn
    have hmem : ∀ n, τ.node = some n → n ∈ w.tree.document.ids := by
      intro n hτ
      rw [hτ] at hn
      exact h.tidy.sound.mem_document_iff.mpr hn
    rw [hturn]
    refine ⟨⟨h.tidy.steady (hresponds.steady h.tidy.sound hcons.sound hmem).1
      hcons, fun r' hr' => ?_, fun f hf => ?_⟩,
      hresponds⟩
    · rcases List.mem_or_eq_of_mem_set hr' with hmem | rfl
      · exact h.rules r' hmem
      · exact ⟨ActiveRule.reacts_invoke hreacts,
          ActiveRule.correctsBy_invoke hcorrects⟩
    · rcases hfailures with heq | ⟨f', hblamed, heq⟩
      · exact h.failures f (heq ▸ hf)
      · rcases List.mem_append.mp (heq ▸ hf) with hf | hf
        · exact h.failures f hf
        · exact List.mem_singleton.mp hf ▸ hblamed

/-- All rules on one occasion; by induction on the rules whose turn is still
to come. -/
theorem occasion (h : w.Orderly policy atoms rests Good)
    (hn : ∀ n, node = some n → n ∈ w.tree.document.ids) (is : List Nat) :
    (w.turns policy (is.map fun i => ⟨i, phase, node⟩)).Orderly policy atoms
      rests Good ∧
      Responds rests phase node w.tree
        (w.turns policy (is.map fun i => ⟨i, phase, node⟩)).tree := by
  induction is generalizing w with
  | nil =>
    exact ⟨h, .of_document_eq h.tidy.sound h.tidy.sound rfl (Nat.le_refl _)⟩
  | cons i is ih =>
    obtain ⟨hfirst, hresponds⟩ := h.turn ⟨i, phase, node⟩
    have hn' := (hresponds.steady h.tidy.sound hfirst.tidy.sound hn).2
    obtain ⟨hrest, hresponds'⟩ := ih hfirst hn'
    exact ⟨hrest, hresponds.trans hresponds' h.tidy hfirst.tidy.sound
      hrest.tidy.sound hn⟩

theorem dispatch (h : w.Orderly policy atoms rests Good) (phase : Phase)
    (hn : n ∈ w.tree.document.ids) :
    (w.dispatch policy phase n).Orderly policy atoms rests Good ∧
      Responds rests phase (some n) w.tree
        (w.dispatch policy phase n).tree := by
  rw [dispatch_eq_turns, Turn.rounds, List.flatMap_singleton]
  exact h.occasion (fun m hm => Option.some.inj hm ▸ hn) _

end Orderly

/-! ## What is left to be done

The measure that makes walks end. Each node of code can be visited twice at
most, so the number of visits that are left goes down; white space goes down
by the nodes that are not yet seen. -/

/-- How many visits of code there can still be. -/
def budget (code : Finset NodeId) (trail : List NodeId) : Nat :=
  code.sum fun x => 2 - trail.count x

theorem budget_append_le (code : Finset NodeId) (trail seen : List NodeId) :
    budget code (trail ++ seen) ≤ budget code trail := by
  refine Finset.sum_le_sum fun x _ => ?_
  rw [List.count_append]
  omega

theorem budget_visit_lt {code : Finset NodeId} {trail : List NodeId}
    (hn : n ∈ code) (hcount : trail.count n ≤ 1) :
    budget code (trail ++ [n]) < budget code trail := by
  refine Finset.sum_lt_sum (fun x _ => ?_) ⟨n, hn, ?_⟩
  · rw [List.count_append]
    omega
  · rw [List.count_append, List.count_singleton_self]
    omega

/-- How many nodes of the document were not visited. -/
def unseen (t : Tree) (trail : List NodeId) : Nat :=
  (t.document.ids.toFinset \ trail.toFinset).card

theorem unseen_visit_lt {trail : List NodeId} (hdoc : u.document = t.document)
    (hn : n ∈ t.document.ids) (hnot : n ∉ trail) :
    unseen u (trail ++ [n]) < unseen t trail := by
  refine Finset.card_lt_card ((Finset.ssubset_iff_of_subset ?_).mpr ⟨n, ?_, ?_⟩)
  · rw [hdoc, List.toFinset_append]
    exact Finset.sdiff_subset_sdiff (Finset.Subset.refl _)
      Finset.subset_union_left
  · simpa using ⟨hn, hnot⟩
  · simp

/-! ## Visits and loops -/

section Visits

variable {here : Place} {trail seen : List NodeId} {pend : Option NodeId}
  {code : Finset NodeId} {v : Walk σ}

/-- A part of a walk leads from `w` to `w'`, where it is at this place after
visits of the nodes in `trail`. -/
structure Reaches (policy : Policy) (atoms : Kind → Bool)
    (rests : Forest → NodeId → Prop) (Good : Tree → String → Fix σ → Prop)
    (w w' : Walk σ) (here : Place) (trail : List NodeId) : Prop where
  orderly : w'.Orderly policy atoms rests Good
  steady : w.tree.Steady (fun _ => True) w'.tree
  frontier : ∃ pend, Frontier atoms rests w'.tree here trail pend

/-- The loop over the children of a node ends, with every child passed. -/
def LoopEnds (policy : Policy) (atoms : Kind → Bool)
    (rests : Forest → NodeId → Prop) (Good : Tree → String → Fix σ → Prop)
    (w : Walk σ) (here : Place) (trail : List NodeId) : Prop :=
  ∃ w' p seen, EndsBelow policy here.node here.progress w w' p seen ∧
    Reaches policy atoms rests Good w w'
      { here with progress := p } (trail ++ seen) ∧
    p.next? (w'.tree.children here.node) = none

/-- The place after the visit of a child that led from `t` to `u`. -/
def past (here : Place) (n : NodeId) (t u : Tree) : Place :=
  { here with
    progress := here.progress.after n (u.parent? n == some here.node)
      (t.children here.node) (u.children here.node) }

/-- A loop ends if the next visit does, and the rest of the loop after it.
-/
theorem LoopEnds.next (h : w.tree.isAttached here.node = true)
    (hnext : here.progress.next? (w.tree.children here.node) = some n)
    (hvisit : Ends policy n w v seen)
    (hreach : Reaches policy atoms rests Good w v (past here n w.tree v.tree)
      (trail ++ seen))
    (hrest : LoopEnds policy atoms rests Good v (past here n w.tree v.tree)
      (trail ++ seen))
    (ht : w.tree.Sound) :
    LoopEnds policy atoms rests Good w here trail := by
  obtain ⟨w', p, seen', hends, hreach', hend⟩ := hrest
  obtain ⟨pend, hf⟩ := hreach.frontier
  have hatt : v.tree.isAttached here.node = true :=
    hf.sound.mem_document_iff.mp hf.node.1
  refine ⟨w', p, seen ++ seen', .next h hnext hvisit hatt hends, ?_, hend⟩
  refine ⟨hreach'.orderly, hreach.steady.trans hreach'.steady ht, ?_⟩
  rw [← List.append_assoc]
  exact hreach'.frontier

section Next

variable (h : w.Orderly policy atoms rests Good)
  (hf : Frontier atoms rests w.tree here trail pend)
  (hnext : here.progress.next? (w.tree.children here.node) = some n)

include h hf hnext

/-- The visit of a token: there is nothing below it, and what is done is
done before its children. -/
theorem visit_token_ends (hleaf : w.tree.isLeaf n = true) :
    ∃ w', Ends policy n w w' [n] ∧
      Reaches policy atoms rests Good w w' (past here n w.tree w'.tree)
        (trail ++ [n]) ∧
      (w.tree.kindIs n Kind.isTrivia = true →
        w'.tree.document = w.tree.document) := by
  have hn := hf.mem_next hnext
  obtain ⟨hv, hbefore⟩ := h.dispatch .beforeChildren hn
  have hreaction := hbefore.reaction n rfl rfl
  have hnv := hreaction.mem hf.sound hv.tidy.sound hn
  have hsteady := hreaction.steady hf.sound hv.tidy.sound hn
  -- A token has no children, so the loop below it is over at once.
  have hchildless : (w.dispatch policy .beforeChildren n).tree.children n =
      [] :=
    hv.tidy.sound.linked.token_childless n
      ((hsteady.label n hn hnv).2.trans hleaf)
  have hbelow : EndsBelow policy n {} (w.dispatch policy .beforeChildren n) _ {}
      [] :=
    .done (hv.tidy.sound.mem_document_iff.mp hnv) (by rw [hchildless]; rfl)
  obtain ⟨hw', hafter⟩ := hv.dispatch .afterChildren hnv
  have hdoc := hafter.still fun hphase => (nomatch hphase)
  -- Before and after the children, as one reaction.
  have hall : Tree.Reaction rests n w.tree
      ((w.dispatch policy .beforeChildren n).dispatch policy
          .afterChildren n).tree :=
    hreaction.trans (.of_document_eq hv.tidy.sound hw'.tidy.sound hdoc
      hafter.grows) hf.sound hv.tidy.sound
      hw'.tidy.sound hn (hf.tidy.isCode_of_composite hn)
  refine ⟨_, .visit hbelow,
    ⟨hw', (hall.steady hf.sound hw'.tidy.sound hn).mono fun _ _ => trivial, ?_⟩,
    fun htrivia => hall.still (Or.inr htrivia)⟩
  -- At white space and comments nothing was done; code may have been moved.
  by_cases htrivia : w.tree.kindIs n Kind.isTrivia = true
  · exact hf.visit_still hnext hleaf hw'.tidy.consistent
      (hall.still (Or.inr htrivia)) hall.grows _
  · have hcode : w.tree.IsCode n := ⟨hn, Bool.eq_false_iff.mpr htrivia⟩
    exact hf.visit_token hnext hcode hleaf hw'.tidy.consistent
      (hall.token hcode hleaf) _

/-- The visit of a composite node begins. A token that is pending lies ahead
of the node and rests on. -/
theorem reaches_enter (hleaf : w.tree.isLeaf n = false) :
    Reaches policy atoms rests Good w (w.dispatch policy .beforeChildren n)
      (here.enter w.tree n) (trail ++ [n]) := by
  have hn := hf.mem_next hnext
  obtain ⟨hv, hbefore⟩ := h.dispatch .beforeChildren hn
  obtain ⟨hsteady, hrest⟩ := (hbefore.reaction n rfl rfl).composite hleaf
  refine ⟨hv, hsteady.mono fun _ hm => hm.elim, pend, ?_⟩
  refine (hf.enter hnext hleaf).steady hsteady hv.tidy.consistent (fun _ hm =>
    hm.elim) fun m hm => ⟨fun _ => id, ?_⟩
  have hp := hf.pending m hm
  rcases hf.precedes_of_unsettled hnext hp.code hp.unsettled with rfl | hprec
  · simp [hp.leaf] at hleaf
  · exact hrest m hp.code hprec hp.rests

end Next

/-- The visit of a composite node ends: the node is where it was, and the
loop that it belongs to goes on past it. -/
theorem reaches_leave {p : Progress} (h : v.Orderly policy atoms rests Good)
    (hf : Frontier atoms rests v.tree ⟨n, p, (here.enter t n).outer⟩ trail pend)
    (hend : p.next? (v.tree.children n) = none) :
    Reaches policy atoms rests Good v (v.dispatch policy .afterChildren n)
      (past here n t (v.dispatch policy .afterChildren n).tree) trail := by
  have hn : n ∈ v.tree.document.ids := hf.node.1
  obtain ⟨hw', hafter⟩ := h.dispatch .afterChildren hn
  have hdoc := hafter.still fun hphase => (nomatch hphase)
  have s : v.tree.SameFile (v.dispatch policy .afterChildren n).tree :=
    ⟨hf.sound, hw'.tidy.sound, hdoc⟩
  have hsteady : v.tree.Steady (fun _ => False)
      (v.dispatch policy .afterChildren n).tree :=
    .of_document_eq hf.sound hw'.tidy.sound hdoc hafter.grows
  have hf' := hf.steady hsteady hw'.tidy.consistent (fun _ hm =>
      hm.elim) fun m hm =>
    ⟨fun _ => id, hdoc ▸ (hf.pending m hm).rests⟩
  have hparent : (v.dispatch policy .afterChildren n).tree.parent? n =
      some here.node := hf'.nested.2.1
  refine ⟨hw', hsteady.mono fun _ hm => hm.elim, pend, ?_⟩
  have hleft := hf'.leave (by rwa [s.children hn])
  unfold past
  rw [hparent, beq_self_eq_true]
  exact hleft

/-- A visit of a token leaves less to be done. -/
theorem less_of_token (hcode : ∀ x, x ∈ code ↔ w.tree.IsCode x)
    (hf : Frontier atoms rests w.tree here trail pend)
    (hnext : here.progress.next? (w.tree.children here.node) = some n)
    (hstill : w.tree.kindIs n Kind.isTrivia = true →
      u.document = w.tree.document) :
    Prod.Lex (· < ·) (· < ·) (budget code (trail ++ [n]),
      unseen u (trail ++ [n]))
      (budget code trail, unseen w.tree trail) := by
  have hn := hf.mem_next hnext
  by_cases htrivia : w.tree.kindIs n Kind.isTrivia = true
  · have hnot : n ∉ trail := hf.next_not_seen hnext
      fun hp => by simp [(hf.pending n hp).code.2] at htrivia
    exact Prod.Lex.right' _ (budget_append_le code trail [n])
      (unseen_visit_lt (hstill htrivia) hn hnot)
  · refine .left _ _ (budget_visit_lt
      ((hcode n).mpr ⟨hn, Bool.eq_false_iff.mpr htrivia⟩) ?_)
    by_cases hp : pend = some n
    · exact Nat.le_of_eq (hf.pending n hp).once
    · rw [List.count_eq_zero_of_not_mem (hf.next_not_seen hnext hp)]
      exact Nat.zero_le 1

/-- So does entering a composite node. -/
theorem budget_enter_lt (hcode : ∀ x, x ∈ code ↔ w.tree.IsCode x)
    (hf : Frontier atoms rests w.tree here trail pend)
    (hnext : here.progress.next? (w.tree.children here.node) = some n)
    (hleaf : w.tree.isLeaf n = false) :
    budget code (trail ++ [n]) < budget code trail := by
  refine budget_visit_lt
    ((hcode n).mpr (hf.tidy.isCode_of_composite (hf.mem_next hnext) hleaf)) ?_
  rw [List.count_eq_zero_of_not_mem (hf.next_not_seen hnext
    fun hp => by simp [(hf.pending n hp).leaf] at hleaf)]
  exact Nat.zero_le 1

/-- **Every loop ends.** A visit of a token leaves less to be done; so does
entering a composite node, for the loop over its children and for what comes
after it. -/
theorem loop_ends {w : Walk σ} {here : Place} {trail : List NodeId}
    {pend : Option NodeId} (hcode : ∀ x, x ∈ code ↔ w.tree.IsCode x)
    (h : w.Orderly policy atoms rests Good)
    (hf : Frontier atoms rests w.tree here trail pend) :
    LoopEnds policy atoms rests Good w here trail := by
  have hatt := hf.sound.mem_document_iff.mp hf.node.1
  -- The recursion follows the loop. At a token it goes on with the next
  -- child, at a composite node first down and then on.
  cases hnext : here.progress.next? (w.tree.children here.node) with
  | none =>
    refine ⟨w, here.progress, [], .done hatt hnext,
      ⟨h, .refl hf.sound, pend, ?_⟩, hnext⟩
    rw [List.append_nil]
    exact hf
  | some n =>
    cases hleaf : w.tree.isLeaf n with
    | true =>
      obtain ⟨v, hvisit, hreach, hstill⟩ := visit_token_ends h hf hnext hleaf
      obtain ⟨pend', hf'⟩ := hreach.frontier
      have hless := less_of_token hcode hf hnext hstill
      have hcode' : ∀ x, x ∈ code ↔ v.tree.IsCode x :=
        fun x => (hcode x).trans hreach.steady.isCode_iff.symm
      exact .next hatt hnext hvisit hreach
        (loop_ends hcode' hreach.orderly hf') hf.sound
    | false =>
      have henter := reaches_enter h hf hnext hleaf
      obtain ⟨pend₁, hf₁⟩ := henter.frontier
      have hless := budget_enter_lt hcode hf hnext hleaf
      have hcode₁ : ∀ x, x ∈ code ↔
          (w.dispatch policy .beforeChildren n).tree.IsCode x :=
        fun x => (hcode x).trans henter.steady.isCode_iff.symm
      -- Below the child. The measure has gone down by the visit of the
      -- child.
      obtain ⟨v, p, seen, hbelow, hreach, hend⟩ :=
        loop_ends hcode₁ henter.orderly hf₁
      obtain ⟨pend₂, hf₂⟩ := hreach.frontier
      have hleave := reaches_leave hreach.orderly hf₂ hend
      have hsteady := (henter.steady.trans hreach.steady hf.sound).trans
        hleave.steady hf.sound
      have hvisited : Reaches policy atoms rests Good w
          (v.dispatch policy .afterChildren n)
          (past here n w.tree (v.dispatch policy .afterChildren n).tree)
              (trail ++ n :: seen) :=
        ⟨hleave.orderly, hsteady, List.append_cons trail n seen ▸
          hleave.frontier⟩
      obtain ⟨pend₃, hf₃⟩ := hvisited.frontier
      -- Behind the child. What was visited below it never adds to what is
      -- left.
      have hless' : budget code (trail ++ n :: seen) < budget code trail := by
        rw [List.append_cons]
        exact Nat.lt_of_le_of_lt (budget_append_le code _ seen) hless
      have hcode₃ : ∀ x, x ∈ code ↔
          (v.dispatch policy .afterChildren n).tree.IsCode x :=
        fun x => (hcode x).trans hsteady.isCode_iff.symm
      exact .next hatt hnext (.visit hbelow) hvisited
        (loop_ends hcode₃ hvisited.orderly hf₃) hf.sound
termination_by (budget code trail, unseen w.tree trail)
decreasing_by
  · exact .left _ _ hless
  · exact .left _ _ hless'
  · exact hless

end Visits

/-! ## Whole walks -/

/-- At the root a walk has passed nothing. -/
theorem frontier_root (ht : t.Tidy atoms) (hleaf : t.isLeaf Tree.root = false) :
    Frontier atoms rests t ⟨Tree.root, {}, []⟩ [Tree.root] none where
  tidy := ht
  nested := rfl
  node := ⟨ht.sound.root_mem_document, hleaf⟩
  opened := by
    rintro q (rfl | ⟨o, ho, -⟩)
    · exact List.mem_cons_self
    · exact (nomatch ho)
  known x hx := List.mem_singleton.mp hx ▸
    ht.sound.lt_count ht.sound.root_mem_document
  seen x hx _ _ := Or.inl (List.mem_singleton.mp hx)
  entered := by
    rintro x - - (rfl | ⟨q, -, ⟨hdone, hclosed⟩ | ⟨-, hpassed⟩ | ⟨o, ho, -⟩⟩)
    · exact List.mem_cons_self
    · exact absurd (Or.inl (List.mem_singleton.mp hdone)) hclosed
    · simp [Progress.passed] at hpassed
    · exact (nomatch ho)
  once x _ _ := List.count_le_length
  twice x := Nat.le_succ_of_le List.count_le_length
  ahead o ho := (nomatch ho)
  listed o ho := (nomatch ho)
  pending m hm := (nomatch hm)

/-- When the loop over the children of the root has ended, every composite
node was visited; by induction along the parents. -/
theorem visited_of_composite {p : Progress} {trail : List NodeId}
    {pend : Option NodeId}
    (hf : Frontier atoms rests t ⟨Tree.root, p, []⟩ trail pend)
    (hend : p.next? (t.children Tree.root) = none) (hx : x ∈ t.document.ids)
    (hleaf : t.isLeaf x = false) : x ∈ trail := by
  induction x using hf.sound.linked.chains_end.induction with
  | _ x ih =>
  refine hf.entered x hx hleaf ?_
  cases hq : t.parent? x with
  | none =>
    refine Or.inl ?_
    have hatt := hf.sound.mem_document_iff.mp hx
    simpa [Tree.isAttached, Tree.ancestors_of_parent?_eq_none hq] using hatt
  | some q =>
    refine Or.inr ⟨q, hq, ?_⟩
    by_cases hroot : q = Tree.root
    · subst hroot
      exact Or.inr (Or.inl ⟨rfl, Progress.passed_of_next?_eq_none hend
        (hf.sound.parent?_eq_some_iff.mp hq)⟩)
    · refine Or.inl ⟨ih q hq (hf.sound.parent_mem_document hx hq)
        (hf.composite_of_parent hq), ?_⟩
      rintro (heq | ⟨o, ho, -⟩)
      · exact hroot heq
      · cases ho

/-- The loop over the children of the root ends. -/
theorem root_loop_ends (h : w.Orderly policy atoms rests Good) :
    ∃ w' p seen, EndsBelow policy Tree.root {} w w' p seen ∧
      w'.Orderly policy atoms rests Good ∧
      w.tree.Steady (fun _ => True) w'.tree ∧
      (∀ x ∈ w'.tree.document.ids, w'.tree.isLeaf x = false →
        (Tree.root :: seen).count x = 1) ∧
      ∀ x, (Tree.root :: seen).count x ≤ 2 := by
  have hsound := h.tidy.sound
  have hroot := hsound.root_mem_document
  -- A file that is a single token has nothing to visit but its root.
  cases hleaf : w.tree.isLeaf Tree.root with
  | true =>
    have hdone : EndsBelow policy Tree.root {} w w {} [] :=
      .done (hsound.mem_document_iff.mp hroot)
        (by rw [hsound.linked.token_childless _ hleaf]; rfl)
    refine ⟨w, {}, [], hdone, h, .refl hsound, fun x hx hcomp => ?_,
      fun x => ?_⟩
    · rw [hsound.eq_root_of_leaf hleaf hx, hleaf] at hcomp
      cases hcomp
    · exact Nat.le_succ_of_le List.count_le_length
  | false =>
    classical
    -- The code there is at the start; rules neither add to it nor take
    -- away.
    have hcode : ∀ x, x ∈ w.tree.document.ids.toFinset.filter w.tree.IsCode ↔
        w.tree.IsCode x := by
      intro x
      rw [Finset.mem_filter, List.mem_toFinset]
      exact and_iff_right_of_imp Tree.IsCode.mem
    obtain ⟨w', p, seen, hends, hreach, hend⟩ :=
      loop_ends hcode h (frontier_root h.tidy hleaf)
    obtain ⟨pend, hf⟩ := hreach.frontier
    refine ⟨w', p, seen, hends, hreach.orderly, hreach.steady, fun x hx hcomp =>
      ?_, hf.twice⟩
    exact Nat.le_antisymm (hf.once x hx hcomp)
      (List.count_pos_iff.mpr (visited_of_composite hf hend hx hcomp))

/-- **A walk ends**, visits every composite node once and no node more than
twice. -/
theorem Orderly.ends (h : w.Orderly policy atoms rests Good) :
    ∃ w' seen, Ends policy Tree.root w w' seen ∧
      w'.Orderly policy atoms rests Good ∧
      w.tree.Steady (fun _ => True) w'.tree ∧
      (∀ x ∈ w.tree.document.ids, w.tree.isLeaf x = false → seen.count x = 1) ∧
        ∀ x, seen.count x ≤ 2 := by
  have hroot := h.tidy.sound.root_mem_document
  obtain ⟨hv, hbefore⟩ := h.dispatch .beforeChildren hroot
  have hfirst := (hbefore.steady h.tidy.sound hv.tidy.sound fun n hn =>
    Option.some.inj hn ▸ hroot).1
  obtain ⟨v', p, seen, hends, hv', hsteady, honce, htwice⟩ := root_loop_ends hv
  obtain ⟨hw', hafter⟩ :=
    hv'.dispatch .afterChildren hv'.tidy.sound.root_mem_document
  have hdoc := hafter.still fun hphase => (nomatch hphase)
  have hlast : v'.tree.Steady (fun _ => True)
      (v'.dispatch policy .afterChildren Tree.root).tree :=
    .of_document_eq hv'.tidy.sound hw'.tidy.sound hdoc hafter.grows
  have hloop := (hfirst.mono fun _ _ => trivial).trans hsteady h.tidy.sound
  refine ⟨_, _, .visit hends, hw', hloop.trans hlast h.tidy.sound,
    fun x hx hcomp => ?_, htwice⟩
  have hcode := h.tidy.isCode_of_composite hx hcomp
  exact honce x (hloop.isCode hcode).1 ((hloop.isLeaf hcode).trans hcomp)

end Walk

end TreeLint
