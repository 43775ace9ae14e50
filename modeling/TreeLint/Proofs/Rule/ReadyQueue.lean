import TreeLint.Proofs.Rule.Waiting
import Mathlib.Computability.StateTransition

/-!
# Ready rules, and an index of those that wait

`RuleInfo.place` looks through all rules that are left for the first that
waits for nothing. The same order is found without looking at every rule
every time (specification, §4.1). A queue keeps what each rule still waits
for and which rules are ready. An index made at the beginning says who
waits for whom. One step takes the least ready rule and looks only at the
rules that the index lists for it.

After every step the queue is what can be read off the table of the rules
that are left (`ReadyQueue.Describes`). So the steps come to an end, and
what they end with is what `sort` answers (`sort_eq_outcome`).

Specification, §4.1: the algorithm of ready candidates.
-/

open StateTransition (Reaches)

namespace TreeLint

open RuleInfo

/-! ## The queue -/

/-- For every rule of a table, the rules of it that it waits for. -/
def waitLists (m : NameMap RuleInfo) : NameMap (List RuleId) :=
  m.map fun e => (e.1, e.2.waits m)

/-- Note that a rule waits for each of its targets. -/
def noteWaiting (index : NameMap (List RuleId))
    (e : String × List RuleId) : NameMap (List RuleId) :=
  e.2.foldl (fun index target => NameMap.insert target
    ((NameMap.find? target index).getD [] ++ [e.1]) index) index

/-- For every rule, the rules that wait for it. -/
def dependents (waitsFor : NameMap (List RuleId)) : NameMap (List RuleId) :=
  waitsFor.foldl noteWaiting []

/-- Rules on their way into the order. -/
structure ReadyQueue where
  /-- What each rule that is left still waits for. -/
  waitsFor : NameMap (List RuleId)
  /-- The rules that wait for nothing, in increasing order. -/
  ready : List RuleId
  placed : List RuleInfo
deriving DecidableEq, Repr

namespace ReadyQueue

/-- The queue when nothing is placed. -/
def start (waitsFor : NameMap (List RuleId)) : ReadyQueue where
  waitsFor
  ready := (waitsFor.filter fun e => e.2.isEmpty).map Prod.fst
  placed := []

/-- A rule stops waiting for one that was placed, and is ready if it waited
for nothing else. -/
def release (placed : RuleId) (q : ReadyQueue) (rule : RuleId) : ReadyQueue :=
  match NameMap.find? rule q.waitsFor with
  | none => q
  | some targets =>
    let left := targets.filter (· != placed)
    { q with
      waitsFor := NameMap.insert rule left q.waitsFor
      ready := if left.isEmpty then sortedNames (rule :: q.ready)
        else q.ready }

/-- Place the least ready rule. -/
def step? (running : NameMap RuleInfo) (index : NameMap (List RuleId))
    (q : ReadyQueue) : Option ReadyQueue :=
  match q.ready with
  | [] => none
  | next :: ready =>
    some (((NameMap.find? next index).getD []).foldl (release next)
      { waitsFor := q.waitsFor.filter fun e => e.1 != next
        ready
        placed := q.placed ++ (NameMap.find? next running).toList })

/-- The order, or whatever is left that no rule of it is ready. -/
def outcome (q : ReadyQueue) : Except OrderError (List RuleInfo) :=
  if q.waitsFor.isEmpty then .ok q.placed
  else .error ⟨q.waitsFor.map fun e => ⟨e.1, e.2⟩⟩

end ReadyQueue

/-! ## The index -/

section Index

variable {target rule : RuleId}

/-- Whether the index lists a rule among those that wait for another. -/
def Listed (index : NameMap (List RuleId)) (target rule : RuleId) : Prop :=
  rule ∈ (NameMap.find? target index).getD []

/-- Noting what one rule waits for lists it under each of its targets. -/
theorem listed_noteWaiting (index : NameMap (List RuleId))
    (e : String × List RuleId) :
    Listed (noteWaiting index e) target rule ↔
      Listed index target rule ∨ rule = e.1 ∧ target ∈ e.2 := by
  obtain ⟨name, targets⟩ := e
  induction targets generalizing index with
  | nil => simp [noteWaiting]
  | cons t targets ih =>
    have hstep : noteWaiting index (name, t :: targets) =
        noteWaiting (NameMap.insert t
          ((NameMap.find? t index).getD [] ++ [name]) index)
          (name, targets) := rfl
    rw [hstep, ih, Listed, NameMap.find?_insert]
    by_cases ht : t = target
    · simp [ht, Listed]
      tauto
    · simp [ht, Ne.symm ht, Listed]

/-- The index lists a rule under exactly the rules it waits for. -/
theorem listed_dependents {waitsFor : NameMap (List RuleId)} :
    Listed (dependents waitsFor) target rule ↔
      ∃ e ∈ waitsFor, rule = e.1 ∧ target ∈ e.2 := by
  have hfold : ∀ (entries : NameMap (List RuleId)) index,
      Listed (entries.foldl noteWaiting index) target rule ↔
        Listed index target rule ∨
          ∃ e ∈ entries, rule = e.1 ∧ target ∈ e.2 := by
    intro entries
    induction entries with
    | nil => simp
    | cons e entries ih =>
      intro index
      rw [List.foldl_cons, ih, listed_noteWaiting]
      simp [or_assoc]
  rw [dependents, hfold]
  simp [Listed, NameMap.find?]

end Index

/-! ## Releasing the rules that waited -/

namespace ReadyQueue

variable {t : RuleId} {q q' q'' : ReadyQueue} {l l' : List RuleId}

/-- After the rules in `l` stopped waiting for `t`: what each rule waits
for, and who is ready. -/
structure Released (t : RuleId) (l : List RuleId) (q q' : ReadyQueue) :
    Prop where
  waitsFor : q'.waitsFor = q.waitsFor.map fun e =>
    (e.1, if e.1 ∈ l then e.2.filter (· != t) else e.2)
  ready : ∀ x, x ∈ q'.ready ↔ x ∈ q.ready ∨
    ∃ e ∈ q.waitsFor, e.1 = x ∧ x ∈ l ∧ e.2.filter (· != t) = []
  sorted : q.ready.Pairwise (· < ·) → q'.ready.Pairwise (· < ·)
  placed : q'.placed = q.placed

theorem Released.refl (t : RuleId) (q : ReadyQueue) : Released t [] q q :=
  ⟨by simp, by simp, id, rfl⟩

/-- A rule that stopped waiting already does not mind stopping again. -/
theorem Released.trans (h : Released t l q q') (h' : Released t l' q' q'') :
    Released t (l ++ l') q q'' where
  waitsFor := by
    rw [h'.waitsFor, h.waitsFor, List.map_map]
    refine List.map_congr_left fun e _ => ?_
    by_cases hl : e.1 ∈ l <;> by_cases hl' : e.1 ∈ l' <;> simp [hl, hl']
  ready x := by
    have hsame : ∀ e : String × List RuleId,
        (if e.1 ∈ l then e.2.filter (· != t) else e.2).filter (· != t) =
          e.2.filter (· != t) := by
      intro e
      split_ifs <;> simp
    rw [h'.ready, h.ready, h.waitsFor]
    simp only [List.mem_map, exists_exists_and_eq_and, hsame,
      List.mem_append]
    constructor
    · rintro ((hx | ⟨e, he, hname, hl, hnil⟩) | ⟨e, he, hname, hl, hnil⟩)
      · exact Or.inl hx
      · exact Or.inr ⟨e, he, hname, Or.inl hl, hnil⟩
      · exact Or.inr ⟨e, he, hname, Or.inr hl, hnil⟩
    · rintro (hx | ⟨e, he, hname, hl | hl, hnil⟩)
      · exact Or.inl (Or.inl hx)
      · exact Or.inl (Or.inr ⟨e, he, hname, hl, hnil⟩)
      · exact Or.inr ⟨e, he, hname, hl, hnil⟩
  sorted hq := h'.sorted (h.sorted hq)
  placed := h'.placed.trans h.placed

/-- No entry is lost: a released rule waits for less, it does not disappear.
-/
theorem Released.names (h : Released t l q q') :
    NameMap.names q'.waitsFor = NameMap.names q.waitsFor := by
  rw [h.waitsFor, NameMap.names, List.map_map]
  rfl

/-- A rule that is not left is passed over. -/
theorem released_of_find?_none {rule : RuleId}
    (hnone : NameMap.find? rule q.waitsFor = none) :
    Released t [rule] q q := by
  have hne : ∀ e ∈ q.waitsFor, e.1 ≠ rule := by
    rintro e he rfl
    have hin : e.1 ∈ NameMap.names q.waitsFor := List.mem_map_of_mem he
    rw [← NameMap.contains_iff, NameMap.contains, hnone] at hin
    cases hin
  refine ⟨?_, fun x => ?_, id, rfl⟩
  · refine ((List.map_congr_left fun e he => ?_).trans
      (List.map_id q.waitsFor)).symm
    simp [hne e he]
  · refine ⟨Or.inl, fun hx => hx.resolve_right ?_⟩
    rintro ⟨e, he, rfl, hrule, -⟩
    exact hne e he (List.mem_singleton.mp hrule)

/-- A rule that is left waits for less, and is ready if that is nothing. -/
theorem released_of_find?_some {rule : RuleId} {targets : List RuleId}
    (h : NameMap.Sorted q.waitsFor)
    (hsome : NameMap.find? rule q.waitsFor = some targets) :
    Released t [rule] q
      { q with
        waitsFor := NameMap.insert rule (targets.filter (· != t)) q.waitsFor
        ready := if (targets.filter (· != t)).isEmpty then
          sortedNames (rule :: q.ready) else q.ready } := by
  have hentry := NameMap.mem_entries_of_find? hsome
  have hin : rule ∈ NameMap.names q.waitsFor := List.mem_map_of_mem hentry
  have hunique : ∀ e ∈ q.waitsFor, e.1 = rule → e = (rule, targets) :=
    fun e he hname => List.inj_on_of_nodup_map h.nodup he hentry hname
  refine ⟨?_, fun x => ?_, fun hq => ?_, rfl⟩
  · rw [h.insert_eq_map hin]
    refine List.map_congr_left fun e he => ?_
    by_cases hname : e.1 = rule
    · simp [hunique e he hname]
    · simp [hname]
  · have hcase : (∃ e ∈ q.waitsFor, e.1 = x ∧ x ∈ [rule] ∧
        e.2.filter (· != t) = []) ↔
          x = rule ∧ targets.filter (· != t) = [] := by
      constructor
      · rintro ⟨e, he, rfl, hrule, hnil⟩
        have hname := List.mem_singleton.mp hrule
        rw [hunique e he hname] at hnil
        exact ⟨hname, hnil⟩
      · rintro ⟨rfl, hnil⟩
        exact ⟨_, hentry, rfl, List.mem_singleton.mpr rfl, hnil⟩
    rw [hcase]
    by_cases hnil : targets.filter (· != t) = []
    · rw [if_pos (List.isEmpty_iff.mpr hnil), mem_sortedNames,
        List.mem_cons]
      exact ⟨fun hx => hx.symm.imp_right fun h => ⟨h, hnil⟩,
        fun hx => hx.symm.imp_left And.left⟩
    · rw [if_neg (by rwa [List.isEmpty_iff])]
      exact ⟨Or.inl, fun hx => hx.resolve_right fun h => hnil h.2⟩
  · dsimp only
    split_ifs
    · exact sorted_sortedNames _
    · exact hq

theorem released_release (h : NameMap.Sorted q.waitsFor) (rule : RuleId) :
    Released t [rule] q (q.release t rule) := by
  rw [release]
  split
  · next hnone => exact released_of_find?_none hnone
  · next targets hsome => exact released_of_find?_some h hsome

/-- Releasing all rules that waited for the one that was placed. -/
theorem released_foldl (h : NameMap.Sorted q.waitsFor) (l : List RuleId) :
    Released t l q (l.foldl (release t) q) := by
  -- By induction on the list; the entries stay in order, so each rule is
  -- found again.
  induction l generalizing q with
  | nil => exact .refl t q
  | cons rule l ih =>
    have hfirst := released_release (t := t) h rule
    refine hfirst.trans (ih ?_)
    rw [NameMap.Sorted, hfirst.names]
    exact h

/-! ## Steps -/

/-- The queue is what can be read off the table of the rules that are
left. -/
structure Describes (q : ReadyQueue) (m : NameMap RuleInfo) : Prop where
  waitsFor : q.waitsFor = waitLists m
  ready : q.ready = (m.filter fun e => (e.2.waits m).isEmpty).map Prod.fst

variable {m all : NameMap RuleInfo} {e : String × RuleInfo}

theorem Describes.mem_ready_iff (h : q.Describes m) (x : RuleId) :
    x ∈ q.ready ↔ ∃ d ∈ m, d.1 = x ∧ d.2.waits m = [] := by
  rw [h.ready]
  simp [and_comm]

theorem Describes.sorted_ready (h : q.Describes m) (hm : RuleTable m) :
    q.ready.Pairwise (· < ·) := by
  rw [h.ready]
  exact (hm.filter _).sorted

/-- The least ready rule comes first. -/
theorem Describes.exists_ready (h : q.Describes m) (hm : RuleTable m)
    (he : e ∈ m) (hfree : e.2.waits m = [])
    (hleast : ∀ d ∈ m, d.2.waits m = [] → e.1 ≤ d.1) :
    ∃ ready, q.ready = e.1 :: ready := by
  have hin : e.1 ∈ q.ready := (h.mem_ready_iff e.1).mpr ⟨e, he, rfl, hfree⟩
  cases hready : q.ready with
  | nil =>
    rw [hready] at hin
    cases hin
  | cons x ready =>
    have hsorted := h.sorted_ready hm
    rw [hready] at hin hsorted
    obtain ⟨d, hd, rfl, hnone⟩ :=
      (h.mem_ready_iff x).mp (hready ▸ List.mem_cons_self)
    rcases List.mem_cons.mp hin with heq | hlater
    · exact ⟨ready, by rw [heq]⟩
    · exact absurd (List.rel_of_pairwise_cons hsorted hlater)
        (not_lt.mpr (hleast d hd hnone))

/-- The index of all rules lists everyone who waits for `e` among those that
are left. So whoever it does not list waits as if `e` were not there. -/
theorem waits_of_not_listed (hm : RuleTable m) (hall : RuleTable all)
    (hsub : m ⊆ all) {d : String × RuleInfo} (hd : d ∈ m)
    (hnot : ¬ Listed (dependents (waitLists all)) e.1 d.1) :
    d.2.waits m = d.2.waits (m.filter fun d => d.1 != e.1) := by
  rw [← RuleTable.filter_waits, eq_comm, List.filter_eq_self]
  intro x hx
  refine bne_iff_ne.mpr ?_
  rintro rfl
  refine hnot (listed_dependents.mpr ?_)
  obtain ⟨c, hc, hid, hwaits⟩ := (hm.mem_waits_iff d.2 _).mp hx
  exact ⟨_, List.mem_map_of_mem (hsub hd), rfl,
    (hall.mem_waits_iff d.2 _).mpr ⟨c, hsub hc, hid, hwaits⟩⟩

/-- Taking the first rule off the queue and releasing those that wait for it
gives the queue of the table without that rule. -/
theorem Describes.of_released {l : List RuleId} {ready : List RuleId}
    {placed : List RuleInfo} (h : q.Describes m) (hm : RuleTable m)
    (hready : q.ready = e.1 :: ready)
    (hskip : ∀ d ∈ m, d.1 ∉ l →
      d.2.waits m = d.2.waits (m.filter fun d => d.1 != e.1))
    (hrel : Released e.1 l
      ⟨q.waitsFor.filter fun d => d.1 != e.1, ready, placed⟩ q') :
    q'.Describes (m.filter fun d => d.1 != e.1) := by
  have hsorted := h.sorted_ready hm
  rw [hready, List.pairwise_cons] at hsorted
  have hleft : (q.waitsFor.filter fun d => d.1 != e.1) =
      (m.filter fun d => d.1 != e.1).map
        fun d => (d.1, d.2.waits m) := by
    rw [h.waitsFor, waitLists, List.filter_map]
    rfl
  refine ⟨?_, ?_⟩
  · rw [hrel.waitsFor, hleft, List.map_map]
    refine List.map_congr_left fun d hd => congrArg (Prod.mk d.1) ?_
    dsimp only
    split_ifs with hl
    · exact RuleTable.filter_waits d.2 e.1
    · exact hskip d (List.mem_of_mem_filter hd) hl
  · refine (hrel.sorted hsorted.2).eq_of_mem_iff
      ((hm.filter _).filter _).sorted fun x => ?_
    have htail : x ∈ ready ↔ x ≠ e.1 ∧ x ∈ q.ready := by
      rw [hready, List.mem_cons]
      constructor
      · exact fun hx => ⟨(hsorted.1 x hx).ne', Or.inr hx⟩
      · exact fun hx => hx.2.resolve_left hx.1
    rw [hrel.ready, htail, h.mem_ready_iff, hleft]
    simp only [List.mem_map, List.mem_filter, List.isEmpty_iff,
      RuleTable.filter_waits, exists_exists_and_eq_and, bne_iff_ne]
    constructor
    · rintro (⟨hne, d, hd, rfl, hfree⟩ | ⟨d, hd, rfl, -, hfree⟩)
      · refine ⟨d, ⟨⟨hd, hne⟩, ?_⟩, rfl⟩
        rw [← RuleTable.filter_waits, hfree, List.filter_nil]
      · exact ⟨d, ⟨hd, hfree⟩, rfl⟩
    · rintro ⟨d, ⟨hd, hfree⟩, rfl⟩
      by_cases hl : d.1 ∈ l
      · exact Or.inr ⟨d, hd, rfl, hl, hfree⟩
      · exact Or.inl ⟨hd.2, d, hd.1, rfl, (hskip d hd.1 hl).trans hfree⟩

/-- **One step** places the least ready rule, and the queue is then that of
the table without it. The index is that of all rules: what it lists besides
are rules that are placed already, and they are passed over. -/
theorem Describes.step (h : q.Describes m) (hm : RuleTable m)
    (hall : RuleTable all) (hsub : m ⊆ all) (he : e ∈ m)
    (hfree : e.2.waits m = [])
    (hleast : ∀ d ∈ m, d.2.waits m = [] → e.1 ≤ d.1) :
    ∃ q', q.step? all (dependents (waitLists all)) = some q' ∧
      q'.Describes (m.filter fun d => d.1 != e.1) ∧
      q'.placed = q.placed ++ [e.2] := by
  obtain ⟨ready, hready⟩ := h.exists_ready hm he hfree hleast
  have hfound : NameMap.find? e.1 all = some e.2 :=
    hall.sorted.find?_of_mem (hsub he)
  have hnames : NameMap.Sorted (q.waitsFor.filter fun d => d.1 != e.1) := by
    rw [h.waitsFor]
    exact List.Pairwise.sublist (List.Sublist.map _ List.filter_sublist)
      (hm.sorted.mapValues _)
  have hrel := released_foldl (t := e.1)
    (q := ⟨_, ready, q.placed ++ [e.2]⟩) hnames
    ((NameMap.find? e.1 (dependents (waitLists all))).getD [])
  refine ⟨_, ?_, h.of_released hm hready (fun d hd hl => ?_) hrel,
    hrel.placed⟩
  · rw [step?, hready]
    dsimp only
    rw [hfound, Option.toList_some]
  · exact waits_of_not_listed hm hall hsub hd hl

/-- **A whole run** of steps places what `Placing` places, one rule after
the other, and stops where no rule is ready. -/
theorem Describes.reaches {order : List RuleInfo} {rest : NameMap RuleInfo}
    (hall : RuleTable all) (hp : Placing m order rest)
    (h : q.Describes m) (hm : RuleTable m) (hsub : m ⊆ all) :
    ∃ q', Reaches (step? all (dependents (waitLists all))) q q' ∧
      q'.ready = [] ∧ q'.Describes rest ∧ q'.placed = q.placed ++ order := by
  induction hp generalizing q with
  | stuck hwait =>
    refine ⟨q, .refl, ?_, h, (List.append_nil _).symm⟩
    refine List.eq_nil_iff_forall_not_mem.mpr fun x hx => ?_
    obtain ⟨d, hd, -, hnone⟩ := (h.mem_ready_iff x).mp hx
    exact hwait d hd hnone
  | next he hfree hleast hrest ih =>
    obtain ⟨q₁, hstep, h₁, hplaced₁⟩ :=
      h.step hm hall hsub he hfree hleast
    obtain ⟨q₂, hrun, hready, h₂, hplaced₂⟩ :=
      ih h₁ (hm.filter _)
        (List.Subset.trans (List.filter_subset_self _) hsub)
    refine ⟨q₂, .head hstep hrun, hready, h₂, ?_⟩
    rw [hplaced₂, hplaced₁, List.append_assoc]
    rfl

theorem describes_start (m : NameMap RuleInfo) :
    (start (waitLists m)).Describes m where
  waitsFor := rfl
  ready := by
    rw [start, waitLists, List.filter_map, List.map_map]
    rfl

end ReadyQueue

/-- **The queue finds the order.** For any rules, the steps come to an end
with no rule ready, and what is then in the queue is the answer of `sort`:
the order, or who still waits for whom. -/
theorem sort_eq_outcome (rules : List RuleInfo) (disabled : List RuleId) :
    ∃ q, Reaches (ReadyQueue.step? (running rules disabled)
        (dependents (waitLists (running rules disabled))))
        (.start (waitLists (running rules disabled))) q ∧
      q.ready = [] ∧ sort rules disabled = q.outcome := by
  have htable := running_table rules disabled
  obtain ⟨order, rest, hp, hsort⟩ := sort_placing rules disabled
  obtain ⟨q, hrun, hready, hq, hplaced⟩ :=
    (ReadyQueue.describes_start _).reaches htable hp htable
      (List.Subset.refl _)
  refine ⟨q, hrun, hready, ?_⟩
  rw [ReadyQueue.outcome, hq.waitsFor, hplaced]
  rcases hsort with ⟨rfl, hok⟩ | ⟨hne, herror⟩
  · exact hok
  · have hblocked : (waiting rest).map Waiting.blocked =
        (waitLists rest).map fun e => ⟨e.1, e.2⟩ := by
      rw [waiting, waitLists, List.map_map, List.map_map]
      refine List.map_congr_left fun e he => ?_
      exact congrArg (Blocked.mk · _) ((hp.table htable).keyed e he).symm
    rw [herror, hblocked, if_neg]
    simpa [waitLists] using hne

end TreeLint
