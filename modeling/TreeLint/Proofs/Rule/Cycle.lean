import TreeLint.Proofs.Rule.Order
import Mathlib.Data.Fintype.Pigeonhole
import Mathlib.Data.Set.Finite.List
import Mathlib.Logic.Relation
import Mathlib.Order.Monotone.Basic

/-!
# Wishes that contradict each other

Rules and what they wait for are a graph. If `sort` gets stuck, every rule
that is left waits for a rule that is left, so a walk through them never
ends and comes back to where it was. A rule that was placed waits for rules
placed before it only, so no walk from there comes back. Hence the rules
left are those from which a cycle can be reached (`Placed.mem_rest_iff`),
and the error says so, rule by rule (`Explains`).

Specification, §4.1 and §7: a contradiction names every blocked rule and the
rules it still waits for, and no constraint is ever dropped.
-/

namespace TreeLint

open RuleInfo Relation

/-- Both are among the rules, and `p` waits for `q`. -/
def WaitEdge (rules : List RuleInfo) (p q : RuleInfo) : Prop :=
  p ∈ rules ∧ q ∈ rules ∧ WaitsFor p q

/-- A walk from `p` along what rules wait for gets into a cycle. -/
def ReachesCycle (rules : List RuleInfo) (p : RuleInfo) : Prop :=
  ∃ q, ReflTransGen (WaitEdge rules) p q ∧ TransGen (WaitEdge rules) q q

/-! ## The rules left -/

/-- In a finite set from which every element has a way on, every walk gets
into a cycle. -/
theorem exists_cycle_of_finite {α : Type} {r : α → α → Prop} {s : Set α}
    (hs : s.Finite) (hnext : ∀ a ∈ s, ∃ b ∈ s, r a b) {a : α} (ha : a ∈ s) :
    ∃ b, ReflTransGen r a b ∧ TransGen r b b := by
  have : Finite s := hs
  have hstep : ∀ x : s, ∃ y : s, r x y := fun x =>
    let ⟨b, hb, hr⟩ := hnext x x.2
    ⟨⟨b, hb⟩, hr⟩
  choose next hr using hstep
  let walk : ℕ → α := fun n => (next^[n] ⟨a, ha⟩ : s)
  have hwalk : ∀ n, r (walk n) (walk (n + 1)) := by
    intro n
    simp only [walk, Function.iterate_succ_apply']
    exact hr _
  obtain ⟨i, j, hne, heq⟩ := Finite.exists_ne_map_eq_of_infinite fun n =>
    next^[n] ⟨a, ha⟩
  wlog hij : i < j generalizing i j
  · exact this j i hne.symm heq.symm (lt_of_le_of_ne (not_lt.mp hij) hne.symm)
  refine ⟨walk i, ?_, ?_⟩
  · exact Nat.rel_of_forall_rel_succ_of_le (ReflTransGen r)
      (fun n => .single (hwalk n)) (Nat.zero_le i)
  · have hcycle : TransGen r (walk i) (walk j) :=
      Nat.rel_of_forall_rel_succ_of_lt (TransGen r)
        (fun n => .single (hwalk n)) hij
    rwa [show walk j = walk i from congrArg Subtype.val heq.symm] at hcycle

namespace Placed

variable {rules order : List RuleInfo} {rest : NameMap RuleInfo}
  {p q : RuleInfo}

theorem reachesCycle_of_mem_rest (h : Placed rules order rest)
    (hp : p ∈ rest.values) :
    ReachesCycle rules p := by
  refine exists_cycle_of_finite (List.finite_toSet rest.values)
    (fun q hq => ?_) hp
  obtain ⟨d, hd, hw⟩ := h.exists_waitsFor hq
  exact ⟨d, hd, h.mem_iff.mpr (Or.inr hq), h.mem_iff.mpr (Or.inr hd), hw⟩

/-- Walks from a placed rule go through rules placed earlier and earlier. -/
theorem idxOf_lt_of_transGen (h : Placed rules order rest) (hp : p ∈ order)
    (hwalk : TransGen (WaitEdge rules) p q) :
    q ∈ order ∧ order.idxOf q < order.idxOf p := by
  induction hwalk with
  | single hedge => exact h.descends hp hedge.2.1 hedge.2.2
  | tail _ hedge ih =>
    obtain ⟨hq, hlt⟩ := h.descends ih.1 hedge.2.1 hedge.2.2
    exact ⟨hq, hlt.trans ih.2⟩

/-- A rule that was placed does not: whatever it waits for was placed before
it. -/
theorem not_reachesCycle_of_mem_order (h : Placed rules order rest)
    (hp : p ∈ order) :
    ¬ ReachesCycle rules p := by
  rintro ⟨q, hwalk, hcycle⟩
  have hq : q ∈ order := by
    rcases reflTransGen_iff_eq_or_transGen.mp hwalk with rfl | hwalk
    · exact hp
    · exact (h.idxOf_lt_of_transGen hp hwalk).1
  exact lt_irrefl _ (h.idxOf_lt_of_transGen hq hcycle).2

/-- **The rules left are those that cannot be placed.** -/
theorem mem_rest_iff (h : Placed rules order rest) :
    p ∈ rest.values ↔ p ∈ rules ∧ ReachesCycle rules p := by
  constructor
  · exact fun hp => ⟨h.mem_iff.mpr (Or.inr hp), h.reachesCycle_of_mem_rest hp⟩
  · rintro ⟨hp, hcycle⟩
    exact (h.mem_iff.mp hp).resolve_left fun horder =>
      h.not_reachesCycle_of_mem_order horder hcycle

end Placed

/-! ## The report -/

/-- What an error says about the rules: which of them cannot be placed, and
for each what it waits for among them. -/
structure Explains (rules : List RuleInfo) (e : OrderError) : Prop where
  sorted : (e.blocked.map Blocked.rule).Pairwise fun a b => Text.bytes a <
    Text.bytes b
  /-- The rules named are those from which a cycle can be reached. -/
  mem_iff : ∀ id, id ∈ e.blocked.map Blocked.rule ↔ ∃ p ∈ rules, p.id = id ∧
    ReachesCycle rules p
  sorted_waitsFor : ∀ b ∈ e.blocked, b.waitsFor.Pairwise fun a b =>
    Text.bytes a < Text.bytes b
  /-- What a rule waits for are its direct targets that are named themselves. -/
  mem_waitsFor_iff : ∀ b ∈ e.blocked, ∀ id, id ∈ b.waitsFor ↔
    id ∈ e.blocked.map Blocked.rule ∧ ∃ p q, WaitEdge rules p q ∧
      p.id = b.rule ∧ q.id = id
  waitsFor_ne_nil : ∀ b ∈ e.blocked, b.waitsFor ≠ []

theorem pairwise_bytes {ids : List RuleId} (h : ids.Pairwise (· < ·)) :
    ids.Pairwise fun a b => Text.bytes a < Text.bytes b :=
  h.imp Text.bytes_lt_iff.mpr

/-- The error names the rules left, by their names in the table. -/
theorem RuleTable.map_rule_blocked {m : NameMap RuleInfo} (h : RuleTable m) :
    ((waiting m).map Waiting.blocked).map Blocked.rule = m.names := by
  rw [← h.map_id_values, NameMap.values, waiting, List.map_map, List.map_map,
    List.map_map]
  rfl

theorem RuleTable.mem_names_iff {m : NameMap RuleInfo} (h : RuleTable m)
    {id : RuleId} :
    id ∈ m.names ↔ ∃ p ∈ m.values, p.id = id := by
  rw [← h.map_id_values, List.mem_map]

theorem exists_of_mem_blocked {m : NameMap RuleInfo} {b : Blocked}
    (hb : b ∈ (waiting m).map Waiting.blocked) :
    ∃ e ∈ m, b = ⟨e.2.id, e.2.waits m⟩ := by
  simp only [waiting, List.map_map, List.mem_map] at hb
  obtain ⟨e, he, rfl⟩ := hb
  exact ⟨e, he, rfl⟩

/-- **The report names exactly the rules that cannot be placed, and for each
of them exactly what it waits for among those** (specification, §4.1 and
§7). -/
theorem Placed.explains {rules order : List RuleInfo} {rest : NameMap RuleInfo}
    (h : Placed rules order rest) :
    Explains rules ⟨(waiting rest).map Waiting.blocked⟩ := by
  have hsubset : ∀ {p}, p ∈ rest.values → p ∈ rules :=
    fun hp => h.mem_iff.mpr (Or.inr hp)
  -- Nothing is left out of the report and nothing is in it twice; both are
  -- read off the table of the rules that are left.
  refine ⟨?_, fun id => ?_, fun b hb => ?_, fun b hb id => ?_, fun b hb => ?_⟩
  · rw [h.table.map_rule_blocked]
    exact pairwise_bytes h.table.sorted
  · rw [h.table.map_rule_blocked, h.table.mem_names_iff]
    constructor
    · rintro ⟨p, hp, rfl⟩
      exact ⟨p, hsubset hp, rfl, h.reachesCycle_of_mem_rest hp⟩
    · rintro ⟨p, hp, rfl, hcycle⟩
      exact ⟨p, h.mem_rest_iff.mpr ⟨hp, hcycle⟩, rfl⟩
  · obtain ⟨e, -, rfl⟩ := exists_of_mem_blocked hb
    exact pairwise_bytes (h.table.sorted_waits e.2)
  · obtain ⟨e, he, rfl⟩ := exists_of_mem_blocked hb
    have he' : e.2 ∈ rules := hsubset (List.mem_map_of_mem he)
    rw [h.table.map_rule_blocked, h.table.mem_names_iff, h.table.mem_waits_iff]
    constructor
    · rintro ⟨d, hd, rfl, hw⟩
      have hd' : d.2 ∈ rest.values := List.mem_map_of_mem hd
      exact ⟨⟨d.2, hd', rfl⟩, e.2, d.2, ⟨he', hsubset hd', hw⟩, rfl, rfl⟩
    · rintro ⟨⟨d, hd, hid⟩, p, q, ⟨hp, hq, hw⟩, hpid, rfl⟩
      -- the identities decide which rules are meant
      obtain rfl : p = e.2 := List.inj_on_of_nodup_map h.ids hp he' hpid
      obtain rfl : d = q := List.inj_on_of_nodup_map h.ids (hsubset hd) hq hid
      obtain ⟨c, hc, rfl⟩ := List.mem_map.mp hd
      exact ⟨c, hc, rfl, hw⟩
  · obtain ⟨e, he, rfl⟩ := exists_of_mem_blocked hb
    exact h.waits e he

/-- **Sorting fails exactly if the wishes contradict each other.** For rules
with different identities an error means that the graph of the rules that
run has a cycle, which is to say that no order respects their wishes; and
every error explains itself. Specification, §4.1 and §7. -/
theorem sort_eq_error_iff {rules : List RuleInfo}
    (hids : (rules.map RuleInfo.id).Nodup) (disabled : List RuleId) :
    ((∃ e, sort rules disabled = .error e) ↔
      ∃ p, TransGen (WaitEdge (enabled rules disabled)) p p) ∧
    ((∃ e, sort rules disabled = .error e) ↔
      ¬ ∃ order : List RuleInfo, order.Perm (enabled rules disabled) ∧
        Respects (enabled rules disabled) order) ∧
    ∀ e, sort rules disabled = .error e →
      Explains (enabled rules disabled) e := by
  obtain ⟨order, rest, hplaced, ⟨rfl, hsort⟩ | ⟨hne, hsort⟩⟩ :=
    sort_placed hids disabled
  · have hok : ¬ ∃ e, sort rules disabled = .error e := by
      rintro ⟨e, he⟩
      rw [hsort] at he
      cases he
    refine ⟨iff_of_false hok ?_, iff_of_false hok ?_, fun e he =>
      absurd ⟨e, he⟩ hok⟩
    · rintro ⟨p, hcycle⟩
      obtain ⟨q, hedge, -⟩ := TransGen.head'_iff.mp hcycle
      have hp := hplaced.mem_rest_iff.mpr ⟨hedge.1, p, .refl, hcycle⟩
      cases hp
    · exact not_not_intro ⟨order, hplaced.greedyOrder.perm,
        hplaced.greedyOrder.respects⟩
  · have herror : ∃ e, sort rules disabled = .error e := ⟨_, hsort⟩
    refine ⟨iff_of_true herror ?_, iff_of_true herror ?_, fun e he => ?_⟩
    · obtain ⟨d, hd⟩ := List.exists_mem_of_ne_nil _ hne
      obtain ⟨q, -, hcycle⟩ :=
        hplaced.reachesCycle_of_mem_rest (List.mem_map_of_mem hd)
      exact ⟨q, hcycle⟩
    · rintro ⟨other, -, hother⟩
      exact hne (hplaced.rest_eq_nil hother)
    · obtain rfl := Except.error.inj (hsort.symm.trans he)
      exact hplaced.explains

/-- A late rule waits for `"x"`, which wishes to run after it: a cycle of
which only one half was written down. -/
theorem sort_eq_error_of_late_target :
    let a : RuleInfo := { id := "a" }
    let x : RuleInfo := { id := "x", modifiers := [.runAfter "y" .regardless] }
    let y : RuleInfo := { id := "y", modifiers := [.late] }
    let z : RuleInfo :=
      { id := "z", modifiers := [.runAfter "x" .onlyIfActive] }
    let e : OrderError := ⟨[⟨"x", ["y"]⟩, ⟨"y", ["x", "z"]⟩, ⟨"z", ["x"]⟩]⟩
    ([a, x, y, z].map RuleInfo.id).Nodup ∧ sort [a, x, y, z] [] = .error e ∧
      (∃ p, TransGen (WaitEdge (enabled [a, x, y, z] [])) p p) ∧
          Explains (enabled [a, x, y, z] []) e := by
  intro a x y z e
  have hids : ([a, x, y, z].map RuleInfo.id).Nodup := by decide
  have hsort : sort [a, x, y, z] [] = .error e := by decide +kernel
  obtain ⟨hcycle, -, hexplains⟩ := sort_eq_error_iff hids []
  exact ⟨hids, hsort, hcycle.mp ⟨e, hsort⟩, hexplains e hsort⟩

end TreeLint
