import Mathlib.Data.List.Sort
import TreeLint.Proofs.Rule.Cycle

/-!
# Sorting fewer rules

What is left when rules cannot be put in order are the rules from which a
cycle can be reached, and a cycle among fewer rules is a cycle among all of
them. So fewer rules wait for less, and turning rules off never breaks an
order (`sort_fewer_rules`).

An order of all rules is an order of some of them, for the same reason. Late
rules wait for all others, which makes them a group of their own: unless one
of the others wishes to run after a late rule, either group can be sorted
alone, and the late rules come behind (`Placed.append_late`,
`sort_late_apart`).

Specification, §4.1 (constraints on rules that do not run are omitted) and
§9 (late rules are the outer order).
-/

namespace TreeLint

open RuleInfo Relation

/-! ## Cycles among fewer rules

Disabling rules takes wishes away and adds none (specification, §4.1): a
rule that cannot be placed among fewer rules could not be placed among all
of them. -/

section Blocked

variable {rules fewer order order' : List RuleInfo}
  {rest rest' : NameMap RuleInfo} {p : RuleInfo}

theorem ReachesCycle.mono (hsub : fewer ⊆ rules) (h : ReachesCycle fewer p) :
    ReachesCycle rules p := by
  have hedge : WaitEdge fewer ≤ WaitEdge rules := fun _ _ h =>
    ⟨hsub h.1, hsub h.2.1, h.2.2⟩
  obtain ⟨q, hwalk, hcycle⟩ := h
  exact ⟨q, ReflTransGen.mono hedge p q hwalk, TransGen.mono hedge q q hcycle⟩

theorem Placed.rest_subset (h : Placed rules order rest)
    (h' : Placed fewer order' rest') (hsub : fewer ⊆ rules) :
    rest'.values ⊆ rest.values := by
  intro p hp
  obtain ⟨hmem, hcycle⟩ := h'.mem_rest_iff.mp hp
  exact h.mem_rest_iff.mpr ⟨hsub hmem, hcycle.mono hsub⟩

/-- In a table with fewer rules a rule waits for less. -/
theorem RuleTable.waits_sublist (h : RuleTable rest) (h' : RuleTable rest')
    (hsub : rest'.values ⊆ rest.values) (p : RuleInfo) :
    (p.waits rest').Sublist (p.waits rest) := by
  have hmem : p.waits rest' ⊆ p.waits rest := by
    intro id hid
    obtain ⟨e, he, rfl, hw⟩ := (h'.mem_waits_iff p id).mp hid
    obtain ⟨d, hd, hde⟩ := List.mem_map.mp (hsub (List.mem_map_of_mem he))
    exact (h.mem_waits_iff p _).mpr ⟨d, hd, by rw [hde], hde ▸ hw⟩
  have hsorted := h.sorted_waits p
  have hsorted' := h'.sorted_waits p
  exact List.sublist_of_subperm_of_pairwise
    (List.subperm_of_subset (hsorted'.imp ne_of_lt) hmem) hsorted' hsorted

theorem enabled_subset {disabled more : List RuleId} (hsub : disabled ⊆ more) :
    enabled rules more ⊆ enabled rules disabled := by
  intro p hp
  obtain ⟨hmem, hon⟩ := List.mem_filter.mp hp
  refine List.mem_filter.mpr ⟨hmem, ?_⟩
  simp only [Bool.not_eq_true', List.contains_eq_mem, decide_eq_false_iff_not]
    at hon ⊢
  exact fun hoff => hon (hsub hoff)

end Blocked

/-- **Turning rules off never breaks the order.** Let the rules have
different identities, and turn off more of them. If the rules can be put in
order before they still can. If they cannot be put in order afterwards they
could not before, and every rule that is blocked now was blocked then, by
all that blocks it now. Specification, §4.1. -/
theorem sort_fewer_rules {rules : List RuleInfo}
    (hids : (rules.map RuleInfo.id).Nodup) {disabled more : List RuleId}
    (hsub : disabled ⊆ more) :
    ((∃ order, sort rules disabled = .ok order) → ∃ order,
      sort rules more = .ok order) ∧
      ∀ e', sort rules more = .error e' → ∃ e, sort rules disabled = .error e ∧
        ∀ b' ∈ e'.blocked, ∃ b ∈ e.blocked, b.rule = b'.rule ∧
          b'.waitsFor.Sublist b.waitsFor := by
  obtain ⟨order, rest, hplaced, hsort⟩ := sort_placed hids disabled
  obtain ⟨order', rest', hplaced', hsort'⟩ := sort_placed hids more
  have hrest : rest'.values ⊆ rest.values :=
    hplaced.rest_subset hplaced' (enabled_subset hsub)
  rcases hsort' with ⟨-, hok⟩ | ⟨hne, herror⟩
  · exact ⟨fun _ => ⟨order', hok⟩, fun e' he' =>
      absurd (hok.symm.trans he') (by simp)⟩
  have hmem : ∀ d ∈ rest', ∃ e ∈ rest, e.2 = d.2 := fun d hd =>
    List.mem_map.mp (hrest (List.mem_map_of_mem hd))
  rcases hsort with ⟨rfl, -⟩ | ⟨-, hbefore⟩
  · obtain ⟨d, hd⟩ := List.exists_mem_of_ne_nil _ hne
    obtain ⟨e, he, -⟩ := hmem d hd
    cases he
  · refine ⟨?_, fun e' he' => ⟨_, hbefore, fun b' hb' => ?_⟩⟩
    · rintro ⟨found, hfound⟩
      exact absurd (hbefore.symm.trans hfound) (by simp)
    obtain rfl := Except.error.inj (herror.symm.trans he')
    obtain ⟨d, hd, rfl⟩ := exists_of_mem_blocked hb'
    obtain ⟨e, he, hed⟩ := hmem d hd
    refine ⟨⟨e.2.id, e.2.waits rest⟩, ?_, by rw [hed], ?_⟩
    · exact List.mem_map.mpr ⟨⟨e.2, e.2.waits rest⟩,
        List.mem_map.mpr ⟨e, he, rfl⟩, rfl⟩
    · rw [hed]
      exact hplaced.table.waits_sublist hplaced'.table hrest d.2

/-- With `"c"` turned off, `"a"` and `"b"` still wait for each other. -/
theorem sort_fewer_rules_in_cycle :
    let a : RuleInfo :=
  { id := "a", modifiers := [.runAfter "b" .regardless,
    .runAfter "c" .regardless] }
    let b : RuleInfo := { id := "b", modifiers := [.runAfter "a" .regardless] }
    let c : RuleInfo := { id := "c", modifiers := [.runAfter "b" .regardless] }
    sort [a, b, c] ["c"] = .error ⟨[⟨"a", ["b"]⟩, ⟨"b", ["a"]⟩]⟩ ∧
      sort [a, b, c] [] = .error
        ⟨[⟨"a", ["b", "c"]⟩, ⟨"b", ["a"]⟩, ⟨"c", ["b"]⟩]⟩ ∧
      ∃ e, sort [a, b, c] [] = .error e ∧ ∃ blocked ∈ e.blocked,
        blocked.rule = "a" ∧
        ["b"].Sublist blocked.waitsFor := by
  intro a b c
  have herror : sort [a, b, c] ["c"] =
      .error ⟨[⟨"a", ["b"]⟩, ⟨"b", ["a"]⟩]⟩ := by decide +kernel
  obtain ⟨e, he, hblocked⟩ :=
    (@sort_fewer_rules [a, b, c] (by decide) [] ["c"] (List.nil_subset _)).2 _
      herror
  exact ⟨herror, by decide +kernel, e, he, hblocked ⟨"a", ["b"]⟩ (by decide)⟩

/-! ## Late rules -/

/-- The rules that do not wish to run late. -/
def RuleInfo.early (rules : List RuleInfo) : List RuleInfo :=
  rules.filter fun r => !r.isLate

/-- The rules that wish to run late. -/
def RuleInfo.late (rules : List RuleInfo) : List RuleInfo := rules.filter isLate

section Late

variable {rules order other first last : List RuleInfo} {p q : RuleInfo}

theorem mem_early_iff : p ∈ early rules ↔ p ∈ rules ∧ p.isLate = false :=
  by simp [early]

theorem mem_late_iff : p ∈ late rules ↔ p ∈ rules ∧ p.isLate = true :=
  by simp [late]

/-- A late rule waits for every rule that is not late (specification, §9).
-/
theorem late_waitsFor (hp : p.isLate = true)
    (hq : q.isLate = false) : WaitsFor p q :=
  waitsFor_iff.mpr (by simp [hp, hq])

theorem Respects.mono {fewer : List RuleInfo} (hsub : fewer ⊆ rules)
    (h : Respects rules order) : Respects fewer order :=
  fun p hp q hq hw => h p (hsub hp) q (hsub hq) hw

/-- If all rules can be put in order, no rule wishes to run after a late one
unless it is late itself. -/
theorem Respects.not_mem_targets (h : Respects rules order)
    (hp : p ∈ early rules) (hq : q ∈ late rules) : q.id ∉ p.targets := by
  obtain ⟨hp, hearly⟩ := mem_early_iff.mp hp
  obtain ⟨hq, hlate⟩ := mem_late_iff.mp hq
  intro htarget
  have hwaits : WaitsFor p q := waitsFor_iff.mpr (by simp [htarget])
  exact lt_asymm (h p hp q hq hwaits) (h q hq p hp (late_waitsFor hlate hearly))

/-- A rule that is not late waits for rules that are not late. -/
theorem mem_early_of_waitsFor
    (htargets : ∀ p ∈ early rules, ∀ q ∈ late rules, q.id ∉ p.targets)
    (hp : p ∈ early rules) (hq : q ∈ rules) (hw : WaitsFor p q) :
    q ∈ early rules := by
  refine mem_early_iff.mpr ⟨hq, Bool.eq_false_iff.mpr fun hlate => ?_⟩
  have hnot := htargets p hp q (mem_late_iff.mpr ⟨hq, hlate⟩)
  simp [waitsFor_iff, hnot, (mem_early_iff.mp hp).2] at hw

namespace Placed

theorem order_perm (h : Placed rules order []) : order.Perm rules :=
  h.greedyOrder.perm

theorem nodup_order (h : Placed rules order []) : order.Nodup :=
  h.order_perm.nodup_iff.mpr (.of_map _ h.ids)

theorem unique (h : Placed rules order [])
    (h' : Placed rules other []) : order = other :=
  h.greedyOrder.unique h.ids h'.greedyOrder

/-- While the first rules are placed no late rule is ready, since it waits
for all of them. -/
theorem least_of_early
    (htargets : ∀ p ∈ early rules, ∀ q ∈ late rules, q.id ∉ p.targets)
    {before after : List RuleInfo}
    (h : Placed (early rules) (before ++ p :: after) []) :
    Ready rules before p ∧ ∀ s ∈ rules, s ∉ before → Ready rules before s →
      p.id ≤ s.id := by
  obtain ⟨hready, hleast⟩ := h.least before p after rfl
  have hp : p ∈ early rules := h.order_perm.mem_iff.mp (by simp)
  obtain ⟨hmem, hearly⟩ := mem_early_iff.mp hp
  refine ⟨fun q hq hw => hready q (mem_early_of_waitsFor htargets hp hq hw) hw,
    fun s hs hnot hs' => ?_⟩
  have hsearly : s.isLate = false := by
    refine Bool.eq_false_iff.mpr fun hlate => ?_
    have hbefore : p ∈ before := hs' p hmem (late_waitsFor hlate hearly)
    exact List.disjoint_of_nodup_append h.nodup_order hbefore List.mem_cons_self
  exact hleast s (mem_early_iff.mpr ⟨hs, hsearly⟩) hnot fun q hq hw =>
    hs' q (mem_early_iff.mp hq).1 hw

/-- After the first rules only late ones are left, and what they wait for
among the first has been placed. -/
theorem least_of_late {before after : List RuleInfo}
    (hfirst : Placed (early rules) first [])
    (h : Placed (late rules) (before ++ p :: after) []) :
    Ready rules (first ++ before) p ∧ ∀ s ∈ rules, s ∉ first ++ before →
      Ready rules (first ++ before) s →
      p.id ≤ s.id := by
  obtain ⟨hready, hleast⟩ := h.least before p after rfl
  have hplaced : ∀ q ∈ rules, q ∉ first → q ∈ late rules := by
    intro q hq hnot
    refine mem_late_iff.mpr ⟨hq, Bool.eq_true_of_not_eq_false
      fun hearly => hnot ?_⟩
    exact hfirst.order_perm.mem_iff.mpr (mem_early_iff.mpr ⟨hq, hearly⟩)
  refine ⟨fun q hq hw => ?_, fun s hs hnot hs' => ?_⟩
  · by_cases hmem : q ∈ first
    · exact List.mem_append_left _ hmem
    · exact List.mem_append_right _ (hready q (hplaced q hq hmem) hw)
  · rw [List.mem_append, not_or] at hnot
    refine hleast s (hplaced s hs hnot.1) hnot.2 fun q hq hw => ?_
    obtain ⟨hmem, hlate⟩ := mem_late_iff.mp hq
    refine (List.mem_append.mp (hs' q hmem hw)).resolve_left fun hin => ?_
    have hearly := (mem_early_iff.mp (hfirst.order_perm.mem_iff.mp hin)).2
    exact Bool.false_ne_true (hearly.symm.trans hlate)

/-- **The late rules come last**, if no other rule wishes to run after one
of them. -/
theorem append_late (hids : (rules.map RuleInfo.id).Nodup)
    (htargets : ∀ p ∈ early rules, ∀ q ∈ late rules, q.id ∉ p.targets)
    (hfirst : Placed (early rules) first [])
    (hlast : Placed (late rules) last []) :
    Placed rules (first ++ last) [] := by
  have hperm : (first ++ last).Perm rules := by
    refine (hfirst.order_perm.append hlast.order_perm).trans
      (List.perm_append_comm.trans ?_)
    exact List.filter_append_perm isLate rules
  refine ⟨hids,
    ⟨List.Pairwise.nil, by simp⟩, by
    simpa [NameMap.values] using hperm, by simp, ?_⟩
  intro before r after hsplit
  rcases List.append_eq_append_iff.mp hsplit with ⟨before', rfl,
    rfl⟩ | ⟨_ | ⟨r', tail⟩, rfl, htail⟩
  · exact hfirst.least_of_late hlast
  · rw [List.append_nil] at hfirst
    obtain rfl : r :: after = last := htail
    have hleast : Ready rules (before ++ []) r ∧
        ∀ s ∈ rules, s ∉ before ++ [] → Ready rules (before ++ []) s →
          r.id ≤ s.id := hfirst.least_of_late hlast
    rwa [List.append_nil] at hleast
  · obtain rfl : r = r' := (List.cons.inj htail).1
    exact hfirst.least_of_early htargets

end Placed

/-- Sorting succeeds with the one order in which everything is placed. -/
theorem sort_eq_ok_iff_placed (hids : (rules.map RuleInfo.id).Nodup)
    (disabled : List RuleId) :
    sort rules disabled = .ok order ↔
      Placed (enabled rules disabled) order [] := by
  obtain ⟨found, rest, hplaced, ⟨rfl, hok⟩ | ⟨hne, herror⟩⟩ :=
    sort_placed hids disabled
  · rw [hok, Except.ok.injEq]
    exact ⟨fun h => h ▸ hplaced, fun h => hplaced.unique h⟩
  · rw [herror]
    exact iff_of_false (by simp) fun h =>
      hne (hplaced.rest_eq_nil h.greedyOrder.respects)

/-- Rules can be put in order if some list respects all their wishes. -/
theorem exists_placed (hids : (rules.map RuleInfo.id).Nodup)
    (h : Respects rules other) :
    ∃ order, Placed rules order [] := by
  obtain ⟨order, rest, hplaced, -⟩ := sort_placed hids []
  rw [show enabled rules [] = rules by simp [enabled]] at hplaced
  obtain rfl := hplaced.rest_eq_nil h
  exact ⟨order, hplaced⟩

end Late

/-- **Late rules are a group of their own.** Rules with different identities
can be put in order exactly if none of those that run early wishes to run
after a late one, and the early rules alone and the late ones alone can be
put in order. The order is then that of the early rules followed by that of
the late ones. Specification, §4.1 and §9. -/
theorem sort_late_apart {rules : List RuleInfo}
    (hids : (rules.map RuleInfo.id).Nodup) (disabled : List RuleId) :
    ((∃ order, sort rules disabled = .ok order) ↔
      (∀ p ∈ early (enabled rules disabled),
        ∀ q ∈ late (enabled rules disabled), q.id ∉ p.targets) ∧
        (∃ first, sort (early (enabled rules disabled)) [] = .ok first) ∧
        ∃ last, sort (late (enabled rules disabled)) [] = .ok last) ∧
    ∀ order first last, sort rules disabled = .ok order →
      sort (early (enabled rules disabled)) [] = .ok first →
      sort (late (enabled rules disabled)) [] = .ok last →
        order = first ++ last := by
  -- From here on only the rules that run matter.
  generalize hrunning : enabled rules disabled = running
  have hdistinct : (running.map RuleInfo.id).Nodup :=
    hrunning ▸ nodup_enabled hids disabled
  have hsort : ∀ {order}, sort rules disabled = .ok order ↔
      Placed running order [] := by
    intro order
    rw [sort_eq_ok_iff_placed hids, hrunning]
  have hids' : ∀ test : RuleInfo → Bool,
      ((running.filter test).map RuleInfo.id).Nodup := fun test =>
    hdistinct.sublist (List.filter_sublist.map _)
  have hpart : ∀ {test : RuleInfo → Bool} {part : List RuleInfo},
      sort (running.filter test) [] = .ok part ↔
          Placed (running.filter test) part [] := by
    intro test part
    rw [sort_eq_ok_iff_placed (hids' test)]
    simp [enabled]
  refine ⟨⟨?_, ?_⟩, ?_⟩
  · rintro ⟨order, horder⟩
    have hrespects := (hsort.mp horder).greedyOrder.respects
    have hexists : ∀ test : RuleInfo → Bool, ∃ part,
        sort (running.filter test) [] = .ok part := by
      intro test
      obtain ⟨part, hplaced⟩ :=
        exists_placed (hids' test) (hrespects.mono (List.filter_subset_self _))
      exact ⟨part, hpart.mpr hplaced⟩
    exact ⟨fun p hp q hq => hrespects.not_mem_targets hp hq,
      hexists _, hexists _⟩
  · rintro ⟨htargets, ⟨first, hfirst⟩, last, hlast⟩
    exact ⟨first ++ last, hsort.mpr
      (.append_late hdistinct htargets (hpart.mp hfirst) (hpart.mp hlast))⟩
  · intro order first last horder hfirst hlast
    have hplaced := hsort.mp horder
    have htargets : ∀ p ∈ early running, ∀ q ∈ late running, q.id ∉ p.targets :=
        fun p hp q hq =>
      hplaced.greedyOrder.respects.not_mem_targets hp hq
    exact hplaced.unique (.append_late hdistinct htargets (hpart.mp hfirst)
      (hpart.mp hlast))

/-- By its identity the late rule `"0"` would come first of all. Of the
other late rules `"b"` waits for `"c"`. -/
theorem sort_late_apart_in_groups :
    let zero : RuleInfo := { id := "0", modifiers := [.late] }
    let a : RuleInfo := { id := "a", modifiers := [.runAfter "z" .regardless] }
    let b : RuleInfo :=
      { id := "b", modifiers := [.late, .runAfter "c" .onlyIfActive] }
    let c : RuleInfo := { id := "c", modifiers := [.late] }
    let z : RuleInfo := { id := "z" }
    let rules := [zero, a, b, c, z]
    (rules.map RuleInfo.id).Nodup ∧ sort rules [] = .ok [z, a, zero, c, b] ∧
      sort (early (enabled rules [])) [] = .ok [z, a] ∧
        sort (late (enabled rules [])) [] = .ok [zero, c, b] ∧
      ∀ order, sort rules [] = .ok order → order = [z, a] ++ [zero, c, b] := by
  intro zero a b c z rules
  have hids : (rules.map RuleInfo.id).Nodup := by decide
  have hfirst : sort (early (enabled rules [])) [] = .ok [z, a] := by
    decide +kernel
  have hlast : sort (late (enabled rules [])) [] = .ok [zero, c, b] := by
    decide +kernel
  exact ⟨hids, by decide +kernel, hfirst, hlast, fun order horder =>
    (sort_late_apart hids []).2 order _ _ horder hfirst hlast⟩

end TreeLint
