import TreeLint.Proofs.Rule.Waiting
import TreeLint.Proofs.Text.Bytes

/-!
# The order of rules

A rule is ready when every rule it waits for has been placed. An order is
greedy if at each place it has, of the rules that are ready and not placed
yet, the one whose identity is least by its bytes (`GreedyOrder`). There is
at most one such order, and it is what `sort` finds (`sort_eq_ok_iff`).

Both halves go through `Placed`, which is all that is known about the rules
placed and the rules left when `place` has stopped.

Specification, §4.1 and §8: constraints are satisfied, late rules come last,
and ties are broken by identity.
-/

namespace TreeLint

open RuleInfo

/-! ## What has been placed -/

/-- Every one of the rules that `r` waits for has been placed. -/
def Ready (rules placed : List RuleInfo) (r : RuleInfo) : Prop :=
  ∀ q ∈ rules, WaitsFor r q → q ∈ placed

/-- The rules were placed as far as possible: those in `order`, and those in
`rest` are left. -/
structure Placed (rules order : List RuleInfo)
    (rest : NameMap RuleInfo) : Prop where
  ids : (rules.map RuleInfo.id).Nodup
  table : RuleTable rest
  perm : (order ++ rest.values).Perm rules
  waits : ∀ e ∈ rest, e.2.waits rest ≠ []
  /-- Where a rule is placed it is ready, and of the rules that are ready
  and not placed it has the least identity. -/
  least : ∀ before r after, order = before ++ r :: after →
    Ready rules before r ∧
    ∀ s ∈ rules, s ∉ before → Ready rules before s → r.id ≤ s.id

section Placing

variable {m rest : NameMap RuleInfo} {rules order before after : List RuleInfo}
  {r : RuleInfo}

/-- **Of the rules that could go next, the one with the least identity
goes** (specification, §4.1): whenever a rule is placed, it waits for
nothing that is not placed, and no lesser rule could have been placed
instead. -/
theorem Placing.least_ready (h : RuleTable m) (hrules : m.values.Perm rules)
    (hp : Placing m (before ++ r :: after) rest) :
    Ready rules before r ∧ ∀ s ∈ rules, s ∉ before → Ready rules before s →
      r.id ≤ s.id := by
  obtain ⟨k, hk, hperm, hplacing⟩ := hp.split h
  have hmem : ∀ {q}, q ∈ rules ↔ q ∈ before ∨ ∃ e ∈ k, e.2 = q := by
    intro q
    rw [← (hperm.trans hrules).mem_iff, List.mem_append, NameMap.values,
      List.mem_map]
  have hapart : ∀ e ∈ k, e.2 ∉ before := fun e he hbefore =>
    List.disjoint_of_nodup_append (hperm.nodup_iff.mpr h.nodup_values) hbefore
      (List.mem_map_of_mem he)
  cases hplacing with
  | @next _ _ _ e he hfree hleast hrest =>
    refine ⟨fun q hq hw => ?_, fun s hs hnot hready => ?_⟩
    · rcases hmem.mp hq with hq | ⟨d, hd, rfl⟩
      · exact hq
      · exact absurd hw ((hk.waits_eq_nil_iff e.2).mp hfree d hd)
    · obtain ⟨d, hd, rfl⟩ := (hmem.mp hs).resolve_left hnot
      have hnone : d.2.waits k = [] :=
          (hk.waits_eq_nil_iff d.2).mpr fun c hc hw =>
        hapart c hc (hready c.2 (hmem.mpr (Or.inr ⟨c, hc, rfl⟩)) hw)
      rw [← hk.keyed e he, ← hk.keyed d hd]
      exact hleast d hd hnone

/-- What a run of placements gives: an order, and what is left. -/
theorem Placing.placed (h : RuleTable m) (hrules : m.values.Perm rules)
    (hp : Placing m order rest) :
    Placed rules order rest := by
  have hend := hp
  rw [← List.append_nil order] at hend
  obtain ⟨k, hk, hperm, hstuck⟩ := hend.split h
  have hids : (rules.map RuleInfo.id).Nodup := by
    rw [← (hrules.map RuleInfo.id).nodup_iff, h.map_id_values]
    exact h.sorted.nodup
  cases hstuck with
  | stuck hwaits =>
    refine ⟨hids, hk, hperm.trans hrules, hwaits, ?_⟩
    rintro before r after rfl
    exact hp.least_ready h hrules

end Placing

/-- Of rules with different identities, sorting places those it can. -/
theorem sort_placed {rules : List RuleInfo}
    (hids : (rules.map RuleInfo.id).Nodup) (disabled : List RuleId) :
    ∃ order rest, Placed (enabled rules disabled) order rest ∧
      (rest = [] ∧ sort rules disabled = .ok order ∨
        rest ≠ [] ∧ sort rules disabled =
          .error ⟨(waiting rest).map Waiting.blocked⟩) := by
  obtain ⟨order, rest, hp, hsort⟩ := sort_placing rules disabled
  exact ⟨order, rest, hp.placed (running_table rules disabled)
    (values_running_perm hids disabled), hsort⟩

/-! ## Orders -/

/-- Every rule stands after the rules it waits for. -/
def Respects (rules order : List RuleInfo) : Prop :=
  ∀ p ∈ rules, ∀ q ∈ rules, WaitsFor p q → order.idxOf q < order.idxOf p

/-- The order of rules that wishes and identities determine. -/
structure GreedyOrder (rules order : List RuleInfo) : Prop where
  perm : order.Perm rules
  /-- A rule stands after the rules it wishes to run after. -/
  after : ∀ p ∈ rules, ∀ q ∈ rules, ∀ mode, .runAfter q.id mode ∈ p.modifiers →
    order.idxOf q < order.idxOf p
  /-- The late rules come last. -/
  late : ∀ p ∈ rules, ∀ q ∈ rules, .late ∉ p.modifiers → .late ∈ q.modifiers →
    order.idxOf p < order.idxOf q
  /-- Each rule is ready when its turn comes, and no other such rule has a
  lesser identity. -/
  least : ∀ before r rest, order = before ++ r :: rest → Ready rules before r ∧
    ∀ s ∈ rules, s ∉ before → Ready rules before s →
      Text.bytes r.id ≤ Text.bytes s.id

theorem GreedyOrder.respects {rules order : List RuleInfo}
    (h : GreedyOrder rules order) :
    Respects rules order := by
  rintro p hp q hq (⟨mode, hafter⟩ | ⟨hlate, hnot⟩)
  · exact h.after p hp q hq mode hafter
  · exact h.late q hq p hp hnot hlate

theorem idxOf_lt_of_mem_before {before rest : List RuleInfo} {p q : RuleInfo}
    (hnodup : (before ++ p :: rest).Nodup) (hq : q ∈ before) :
    (before ++ p :: rest).idxOf q < (before ++ p :: rest).idxOf p := by
  have hp : p ∉ before := fun hp =>
    List.disjoint_of_nodup_append hnodup hp List.mem_cons_self
  rw [List.idxOf_append_of_mem hq, List.idxOf_append_of_notMem hp,
    List.idxOf_cons_self]
  exact List.idxOf_lt_length_of_mem hq

namespace Placed

variable {rules order other : List RuleInfo} {rest : NameMap RuleInfo}

theorem mem_iff (h : Placed rules order rest) {p : RuleInfo} :
    p ∈ rules ↔ p ∈ order ∨ p ∈ rest.values := by
  rw [← h.perm.mem_iff, List.mem_append]

/-- The rules a placed rule waits for are placed before it. -/
theorem descends (h : Placed rules order rest) {p q : RuleInfo}
    (hmem : p ∈ order) (hq : q ∈ rules) (hw : WaitsFor p q) :
    q ∈ order ∧ order.idxOf q < order.idxOf p := by
  have hnodup : order.Nodup :=
    (h.perm.nodup_iff.mpr (.of_map _ h.ids)).of_append_left
  obtain ⟨before, after, rfl⟩ := List.append_of_mem hmem
  have hbefore : q ∈ before := (h.least before p after rfl).1 q hq hw
  exact ⟨List.mem_append_left _ hbefore, idxOf_lt_of_mem_before hnodup hbefore⟩

/-- A rule that is left waits for another one that is. -/
theorem exists_waitsFor (h : Placed rules order rest) {p : RuleInfo}
    (hp : p ∈ rest.values) :
    ∃ q ∈ rest.values, WaitsFor p q := by
  obtain ⟨e, he, rfl⟩ := List.mem_map.mp hp
  obtain ⟨id, hid⟩ := List.exists_mem_of_ne_nil _ (h.waits e he)
  obtain ⟨d, hd, -, hw⟩ := (h.table.mem_waits_iff e.2 id).mp hid
  exact ⟨d.2, List.mem_map_of_mem hd, hw⟩

/-- If nothing is left, the order is greedy. -/
theorem greedyOrder (h : Placed rules order []) : GreedyOrder rules order := by
  have hperm : order.Perm rules := by
    have hall := h.perm
    rwa [NameMap.values, List.map_nil, List.append_nil] at hall
  have hrespects : Respects rules order := fun p hp q hq hw =>
    (h.descends (hperm.mem_iff.mpr hp) hq hw).2
  refine ⟨hperm, fun p hp q hq mode hafter => ?_,
    fun p hp q hq hnot hlate => ?_, ?_⟩
  · exact hrespects p hp q hq (.runAfter mode hafter)
  · exact hrespects q hq p hp (.late hlate hnot)
  · intro before r after heq
    obtain ⟨hready, hleast⟩ := h.least before r after heq
    exact ⟨hready, fun s hs hnot hs' =>
      Text.bytes_le_iff.mpr (hleast s hs hnot hs')⟩

/-- If some order respects all wishes then nothing is left: of the rules
left, the one that stands first in that order would wait for another one of
them. -/
theorem rest_eq_nil (h : Placed rules order rest)
    (hother : Respects rules other) : rest = [] := by
  have hnone : ∀ p, p ∉ rest.values := by
    intro p
    induction hn : other.idxOf p using Nat.strong_induction_on
        generalizing p with
    | _ n ih =>
      intro hp
      obtain ⟨q, hq, hw⟩ := h.exists_waitsFor hp
      have hlt : other.idxOf q < other.idxOf p :=
        hother p (h.mem_iff.mpr (Or.inr hp)) q (h.mem_iff.mpr (Or.inr hq)) hw
      exact ih _ (hn ▸ hlt) q rfl hq
  exact List.map_eq_nil_iff.mp (List.eq_nil_iff_forall_not_mem.mpr hnone)

end Placed

/-- Rules without wishes can be put in order. -/
theorem sort_of_no_wishes {rules : List RuleInfo}
    (hids : (rules.map RuleInfo.id).Nodup)
    (hnone : ∀ r ∈ rules, r.modifiers = []) (disabled : List RuleId) :
    ∃ order, sort rules disabled = .ok order := by
  obtain ⟨order, rest, hplaced, ⟨-, hok⟩ | ⟨hrest, -⟩⟩ :=
    sort_placed hids disabled
  · exact ⟨order, hok⟩
  · have hrespects : Respects (enabled rules disabled) [] := by
      intro p hp q _ hwaits
      have hp := hnone p (List.mem_of_mem_filter hp)
      rcases hwaits with ⟨mode, hafter⟩ | ⟨hlate, -⟩
      · rw [hp] at hafter
        cases hafter
      · rw [hp] at hlate
        cases hlate
    exact absurd (hplaced.rest_eq_nil hrespects) hrest

/-! ## Only one greedy order -/

namespace GreedyOrder

variable {rules before rest l k : List RuleInfo} {p : RuleInfo}

/-- The rule at a place is one that was not placed before. -/
theorem next_mem (hids : (rules.map RuleInfo.id).Nodup)
    (h : GreedyOrder rules (before ++ p :: rest)) :
    p ∈ rules ∧ p ∉ before := by
  have hnodup : (before ++ p :: rest).Nodup :=
    h.perm.nodup_iff.mpr (List.Nodup.of_map _ hids)
  exact ⟨h.perm.mem_iff.mp (List.mem_append_right _ List.mem_cons_self),
    fun hmem => List.disjoint_of_nodup_append hnodup hmem List.mem_cons_self⟩

/-- Two greedy orders that agree up to some place agree from there on. -/
theorem rest_unique (hids : (rules.map RuleInfo.id).Nodup)
    (hl : GreedyOrder rules (before ++ l))
    (hk : GreedyOrder rules (before ++ k)) : l = k := by
  have hlength : l.length = k.length := by
    have htotal := hl.perm.length_eq.trans hk.perm.length_eq.symm
    rwa [List.length_append, List.length_append, Nat.add_left_cancel_iff]
      at htotal
  -- The next rule of each order is ready in the other one too, and neither
  -- has a smaller name than the other.
  induction l generalizing before k with
  | nil => exact (List.length_eq_zero_iff.mp hlength.symm).symm
  | cons p l ih =>
    cases k with
    | nil => cases hlength
    | cons q k =>
      obtain ⟨hp, hpnew⟩ := hl.next_mem hids
      obtain ⟨hq, hqnew⟩ := hk.next_mem hids
      obtain ⟨hpready, hpleast⟩ := hl.least before p l rfl
      obtain ⟨hqready, hqleast⟩ := hk.least before q k rfl
      have hpq : p.id ≤ q.id :=
        Text.bytes_le_iff.mp (hpleast q hq hqnew hqready)
      have hqp : q.id ≤ p.id :=
        Text.bytes_le_iff.mp (hqleast p hp hpnew hpready)
      obtain rfl : p = q := List.inj_on_of_nodup_map hids hp hq
        (le_antisymm hpq hqp)
      rw [List.append_cons] at hl hk
      rw [ih hl hk (Nat.succ.inj hlength)]

/-- **There is only one greedy order,** so the way it is found does not
matter. -/
theorem unique (hids : (rules.map RuleInfo.id).Nodup) (hl : GreedyOrder rules l)
    (hk : GreedyOrder rules k) : l = k :=
  @rest_unique rules [] l k hids hl hk

end GreedyOrder

/-- **Sorting finds the greedy order.** For rules with different identities,
`sort` gives an order exactly if it is the one greedy order of the rules
that run. Specification, §4.1 and §8. -/
theorem sort_eq_ok_iff {rules : List RuleInfo}
    (hids : (rules.map RuleInfo.id).Nodup) (disabled : List RuleId)
    (order : List RuleInfo) :
    sort rules disabled = .ok order ↔
      GreedyOrder (enabled rules disabled) order ∧
      ∀ other, GreedyOrder (enabled rules disabled) other → other = order := by
  obtain ⟨found, rest, hplaced, hsort⟩ := sort_placed hids disabled
  constructor
  · intro hok
    rcases hsort with ⟨rfl, hfound⟩ | ⟨-, herror⟩
    · obtain rfl : found = order := Except.ok.inj (hfound.symm.trans hok)
      exact ⟨hplaced.greedyOrder, fun other hother =>
        hother.unique hplaced.ids hplaced.greedyOrder⟩
    · rw [herror] at hok
      cases hok
  · rintro ⟨hgreedy, hunique⟩
    obtain rfl : rest = [] := hplaced.rest_eq_nil hgreedy.respects
    rcases hsort with ⟨-, hok⟩ | ⟨hne, -⟩
    · rw [hok, hunique found hplaced.greedyOrder]
    · exact absurd rfl hne

/-- A late rule whose identity is least still comes last, `"a"` comes after
`"z"`, and a wish about a disabled rule is no wish. -/
theorem sort_eq_ok_with_late_rule :
    let late : RuleInfo := { id := "0", modifiers := [.late] }
    let a : RuleInfo :=
      { id := "a", modifiers := [.runAfter "z" .regardless,
        .runAfter "off" .onlyIfActive] }
    let b : RuleInfo := { id := "b" }
    let off : RuleInfo := { id := "off" }
    let z : RuleInfo := { id := "z" }
    ([late, a, b, off, z].map RuleInfo.id).Nodup ∧
      GreedyOrder (enabled [late, a, b, off, z] ["off"]) [b, z, a, late] ∧
      ∀ other, GreedyOrder (enabled [late, a, b, off, z] ["off"]) other →
          other = [b, z, a, late] :=
  ⟨by decide, (sort_eq_ok_iff (by decide) _ _).mp (by decide +kernel)⟩

end TreeLint
