import TreeLint.Proofs.NameMap
import TreeLint.Rule.Order

/-!
# Placing rules one at a time

`WaitsFor` says which rule waits for which, read off the wishes alone. The
rules that run are kept in a table, sorted by identity, and the lists of who
still waits for whom are always those of the table of the rules that are
left (`release_waiting`): placing a rule is taking it from the table. So a
whole run of `place` is a derivation of `Placing`, one rule after the other
(`place_eq`). It can be cut in two anywhere: what was placed before the cut
and the table that is left make up the rules, and the run goes on from that
table (`Placing.split`).

Specification, §4.1: the constraints, and the placing of one rule after the
other.
-/

namespace TreeLint

namespace RuleInfo

/-- `p` has to run after `q`, if both run: it says so, or it is late and `q`
is not. -/
inductive WaitsFor (p q : RuleInfo) : Prop
  | runAfter (mode : RunAfterMode) (h : .runAfter q.id mode ∈ p.modifiers)
  | late (hp : .late ∈ p.modifiers) (hq : .late ∉ q.modifiers)

/-- The rules that run, in the order they were given in. -/
def enabled (rules : List RuleInfo) (disabled : List RuleId) : List RuleInfo :=
  rules.filter fun r => !disabled.contains r.id

/-- Targets are the rules named in wishes to run after another, in either
mode. -/
theorem mem_targets_iff {p : RuleInfo} {target : RuleId} :
    target ∈ p.targets ↔ ∃ mode, .runAfter target mode ∈ p.modifiers := by
  simp only [targets, List.mem_filterMap]
  constructor
  · rintro ⟨m, hm, hsome⟩
    cases m with
    | late => cases hsome
    | runAfter t mode =>
      cases hsome
      exact ⟨mode, hm⟩
  · rintro ⟨mode, hm⟩
    exact ⟨_, hm, rfl⟩

/-- What it means to wait for a rule, as it is computed (specification,
§4.1): it is a target, or one is late and the other is not. -/
theorem waitsFor_iff {p q : RuleInfo} :
    WaitsFor p q ↔ (p.targets.contains q.id || (p.isLate && !q.isLate)) =
      true := by
  simp only [Bool.or_eq_true, Bool.and_eq_true, List.contains_iff_mem,
    mem_targets_iff, isLate,
    Bool.not_eq_true', ← Bool.not_eq_true]
  constructor
  · rintro (⟨mode, h⟩ | ⟨hp, hq⟩)
    · exact Or.inl ⟨mode, h⟩
    · exact Or.inr ⟨hp, hq⟩
  · rintro (⟨mode, h⟩ | ⟨hp, hq⟩)
    · exact .runAfter mode h
    · exact .late hp hq

end RuleInfo

open RuleInfo

/-! ## Tables of rules -/

/-- A table of rules by their identities. -/
structure RuleTable (m : NameMap RuleInfo) : Prop where
  sorted : NameMap.Sorted m
  keyed : ∀ e ∈ m, e.1 = e.2.id

namespace RuleTable

variable {m : NameMap RuleInfo}

theorem map_id_values (h : RuleTable m) :
    m.values.map RuleInfo.id = m.names := by
  rw [NameMap.values, List.map_map]
  exact List.map_congr_left fun e he => (h.keyed e he).symm

theorem nodup_values (h : RuleTable m) : m.values.Nodup := by
  refine List.Nodup.of_map RuleInfo.id ?_
  rw [h.map_id_values]
  exact h.sorted.nodup

/-- Taking the entry of one name from a table takes nothing else. -/
theorem perm_cons_filter (h : RuleTable m) {e : String × RuleInfo}
    (he : e ∈ m) :
    List.Perm m (e :: m.filter fun d => d.1 != e.1) := by
  have hnodup : List.Nodup m := List.Nodup.of_map Prod.fst h.sorted.nodup
  have hkey : ∀ d ∈ m, (d != e) = (d.1 != e.1) := by
    intro d hd
    have hiff : d = e ↔ d.1 = e.1 :=
      ⟨congrArg Prod.fst, List.inj_on_of_nodup_map h.sorted.nodup hd he⟩
    simp only [bne, beq_eq_decide, hiff]
  have herase : m.erase e = m.filter fun d => d.1 != e.1 := by
    rw [hnodup.erase_eq_filter]
    exact List.filter_congr hkey
  rw [← herase]
  exact List.perm_cons_erase he

theorem filter (h : RuleTable m) (f : String × RuleInfo → Bool) :
    RuleTable (m.filter f) where
  sorted := List.Pairwise.sublist
    (List.Sublist.map Prod.fst List.filter_sublist) h.sorted
  keyed e he := h.keyed e (List.mem_of_mem_filter he)

/-- The waiting list of a rule holds the rules of the table it waits for. -/
theorem mem_waits_iff (h : RuleTable m) (p : RuleInfo) (id : RuleId) :
    id ∈ p.waits m ↔ ∃ e ∈ m, e.2.id = id ∧ WaitsFor p e.2 := by
  simp only [waits, List.mem_map, List.mem_filter]
  constructor
  · rintro ⟨e, ⟨he, hw⟩, rfl⟩
    rw [h.keyed e he] at hw ⊢
    exact ⟨e, he, rfl, waitsFor_iff.mpr hw⟩
  · rintro ⟨e, he, rfl, hw⟩
    refine ⟨e, ⟨he, ?_⟩, h.keyed e he⟩
    rw [h.keyed e he]
    exact waitsFor_iff.mp hw

/-- A rule is ready if it waits for none of the rules that are left. -/
theorem waits_eq_nil_iff (h : RuleTable m) (p : RuleInfo) :
    p.waits m = [] ↔ ∀ e ∈ m, ¬ WaitsFor p e.2 := by
  constructor
  · intro hnil e he hw
    have : e.2.id ∈ p.waits m := (h.mem_waits_iff p e.2.id).mpr ⟨e, he, rfl, hw⟩
    rw [hnil] at this
    cases this
  · intro hnone
    refine List.eq_nil_iff_forall_not_mem.mpr fun id hid => ?_
    obtain ⟨e, he, -, hw⟩ := (h.mem_waits_iff p id).mp hid
    exact hnone e he hw

theorem sorted_waits (h : RuleTable m) (p : RuleInfo) :
    (p.waits m).Pairwise (· < ·) :=
  List.Pairwise.sublist (List.Sublist.map Prod.fst List.filter_sublist) h.sorted

/-- A rule that stops waiting for another waits as if that were not there. -/
theorem filter_waits (p : RuleInfo) (x : RuleId) :
    (p.waits m).filter (· != x) = p.waits (m.filter fun e => e.1 != x) := by
  simp only [waits, List.filter_map, List.filter_filter]
  congr 1
  exact List.filter_congr fun e _ => Bool.and_comm _ _

/-- Taking a placed rule from the waiting lists is taking it from the table. -/
theorem release_waiting (h : RuleTable m) (x : RuleId) :
    ((waiting m).filter fun w => w.info.id != x).map (Waiting.release x) =
      waiting (m.filter fun e => e.1 != x) := by
  have hkeep : m.filter (fun e => e.2.id != x) = m.filter fun e => e.1 != x :=
    List.filter_congr fun e he => by rw [h.keyed e he]
  simp only [waiting, List.filter_map, List.map_map]
  rw [show m.filter ((fun w : Waiting => w.info.id != x) ∘ fun e =>
    ⟨e.2, e.2.waits m⟩) =
    m.filter fun e => e.1 != x from hkeep]
  exact List.map_congr_left fun e _ =>
    congrArg (Waiting.mk e.2) (filter_waits e.2 x)

/-- The rule that is placed next is the least of those that wait for nothing. -/
theorem least_of_find? (h : RuleTable m) {f : String × RuleInfo → Bool}
    {e : String × RuleInfo} (hfind : List.find? f m = some e) :
    ∀ d ∈ m, f d = true → e.1 ≤ d.1 := by
  obtain ⟨-, before, after, rfl, hbefore⟩ :=
    List.find?_eq_some_iff_append.mp hfind
  intro d hd hf
  rcases List.mem_append.mp hd with hd | hd
  · exact absurd hf (by simpa using hbefore d hd)
  · rcases List.mem_cons.mp hd with rfl | hd
    · exact le_refl _
    · have hsorted := h.sorted
      rw [NameMap.Sorted, NameMap.names, List.map_append, List.map_cons]
        at hsorted
      have htail := (List.pairwise_append.mp hsorted).2.1
      exact (List.rel_of_pairwise_cons htail (List.mem_map_of_mem hd)).le

end RuleTable

/-! ## A run of placements -/

/-- Starting from the table `m`, the rules of `order` are placed, each the
least that waits for nothing, and in the table `rest` that is left every
rule waits. -/
inductive Placing : NameMap RuleInfo → List RuleInfo → NameMap RuleInfo → Prop
  | stuck {m : NameMap RuleInfo} (h : ∀ e ∈ m, e.2.waits m ≠ []) :
    Placing m [] m
  | next {m rest : NameMap RuleInfo} {order : List RuleInfo}
      {e : String × RuleInfo} (he : e ∈ m) (hfree : e.2.waits m = [])
      (hleast : ∀ d ∈ m, d.2.waits m = [] → e.1 ≤ d.1)
      (hrest : Placing (m.filter fun d => d.1 != e.1) order rest) :
      Placing m (e.2 :: order) rest

/-- With one round for each rule, `place` goes on until it is stuck. -/
theorem place_eq {m : NameMap RuleInfo} (h : RuleTable m) {n : Nat}
    (hn : m.length ≤ n) :
    ∃ order rest, place n (waiting m) = (order, waiting rest) ∧
      Placing m order rest := by
  -- Each round places one rule, so the number of rules is enough.
  induction n generalizing m with
  | zero =>
    obtain rfl : m = [] := List.length_eq_zero_iff.mp (Nat.le_zero.mp hn)
    exact ⟨[], [], rfl, .stuck fun e he => nomatch he⟩
  | succ n ih =>
    have hfind : (waiting m).find? (fun w => w.waitsFor.isEmpty) =
        (List.find? (fun e => (e.2.waits m).isEmpty) m).map fun e =>
            ⟨e.2, e.2.waits m⟩ :=
      List.find?_map
    cases hnext : List.find? (fun e => (e.2.waits m).isEmpty) m with
    | none =>
      refine ⟨[], m, ?_, .stuck fun e he => ?_⟩
      · rw [place, hfind, hnext]
        rfl
      · simpa using List.find?_eq_none.mp hnext e he
    | some e =>
      have he : e ∈ m := List.mem_of_find?_eq_some hnext
      have hfree : e.2.waits m = [] := by simpa using List.find?_some hnext
      have hleast : ∀ d ∈ m, d.2.waits m = [] → e.1 ≤ d.1 := fun d hd hw =>
        h.least_of_find? hnext d hd (by simp [hw])
      have hshort : (m.filter fun d => d.1 != e.1).length < m.length :=
        List.length_filter_lt_length_iff_exists.mpr ⟨e, he, by simp⟩
      obtain ⟨order, rest, hplace, hplacing⟩ :=
        ih (h.filter _) (Nat.le_of_lt_succ (hshort.trans_le hn))
      refine ⟨e.2 :: order, rest, ?_, .next he hfree hleast hplacing⟩
      rw [place, hfind, hnext]
      simp only [Option.map_some]
      rw [h.release_waiting, ← h.keyed e he, hplace]

/-- After any number of rules the run goes on from the table of the others. -/
theorem Placing.split {m rest : NameMap RuleInfo} {before after : List RuleInfo}
    (h : RuleTable m) (hp : Placing m (before ++ after) rest) :
    ∃ k, RuleTable k ∧ (before ++ k.values).Perm m.values ∧
      Placing k after rest := by
  induction before generalizing m with
  | nil => exact ⟨m, h, List.Perm.refl _, hp⟩
  | cons p before ih =>
    cases hp with
    | @next _ _ _ e he hfree hleast hrest =>
      obtain ⟨k, hk, hperm, hplacing⟩ := ih (h.filter _) hrest
      have hvalues : m.values.Perm
          (e.2 :: NameMap.values (m.filter fun d => d.1 != e.1)) :=
        (h.perm_cons_filter he).map Prod.snd
      exact ⟨k, hk, (hperm.cons e.2).trans hvalues.symm, hplacing⟩

/-! ## The rules that run -/

/-- The rules that run are a table, also if some have one identity. -/
theorem running_table (rules : List RuleInfo) (disabled : List RuleId) :
    RuleTable (running rules disabled) where
  sorted := NameMap.sorted_ofList _
  keyed e he := by
    obtain ⟨r, -, rfl⟩ := List.mem_map.mp (NameMap.mem_of_mem_ofList he)
    rfl

/-- What is left is a table again. -/
theorem Placing.table {m rest : NameMap RuleInfo} {order : List RuleInfo}
    (hp : Placing m order rest) (h : RuleTable m) : RuleTable rest := by
  induction hp with
  | stuck _ => exact h
  | next _ _ _ _ ih => exact ih (h.filter _)

/-- Sorting places what it can; it succeeds if nothing is left, and
otherwise reports what is. -/
theorem sort_placing (rules : List RuleInfo) (disabled : List RuleId) :
    ∃ order rest, Placing (running rules disabled) order rest ∧
      (rest = [] ∧ sort rules disabled = .ok order ∨
        rest ≠ [] ∧ sort rules disabled =
          .error ⟨(waiting rest).map Waiting.blocked⟩) := by
  have hlength : (running rules disabled).length ≤
      (waiting (running rules disabled)).length := by
    simp [waiting]
  obtain ⟨order, rest, hplace, hp⟩ :=
    place_eq (running_table rules disabled) hlength
  refine ⟨order, rest, hp, ?_⟩
  cases rest with
  | nil => exact Or.inl ⟨rfl, by simp only [sort, hplace]; rfl⟩
  | cons e rest =>
    exact Or.inr ⟨List.cons_ne_nil e rest, by simp only [sort, hplace]; rfl⟩

section Running

variable {rules : List RuleInfo} (hids : (rules.map RuleInfo.id).Nodup)
  (disabled : List RuleId)

include hids

theorem nodup_enabled : ((enabled rules disabled).map RuleInfo.id).Nodup :=
  hids.sublist (List.Sublist.map _ List.filter_sublist)

/-- Rules with different identities all get into the table. -/
theorem running_perm :
    List.Perm (running rules disabled) ((enabled rules disabled).map fun r =>
      (r.id, r)) := by
  refine NameMap.ofList_perm ?_
  rw [List.map_map]
  exact nodup_enabled hids disabled

theorem values_running_perm :
    (running rules disabled).values.Perm (enabled rules disabled) := by
  have hvalues := (running_perm hids disabled).map Prod.snd
  rw [List.map_map] at hvalues
  exact hvalues.trans (.of_eq (List.map_id _))

end Running

end TreeLint
