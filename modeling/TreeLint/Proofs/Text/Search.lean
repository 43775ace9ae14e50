import Mathlib.Data.List.Basic

/-!
# Searching by halving

A list in increasing order is searched by halving the part of it that may
hold the entry. Entries are looked up one at a time, and a lookup outside of
the list would leave the search without an answer (`search?`). It never
does: what is left of the list stays inside of it (`Narrowed`), so there
always is an answer, and the answer says where the entry is or where it
would have to be put (`search?_answers`).

Line starts are searched like this for the position of a violation
(specification, §4.3).
-/

namespace TreeLint.Text

/-- What a search finds: the place of an entry, or the place where it would
have to be put. -/
inductive Search where
  | found (index : Nat)
  | missing (index : Nat)
deriving DecidableEq, Repr

namespace Search

/-- What such an answer says about a list and an entry. -/
def Answers (xs : List Nat) (x : Nat) : Search → Prop
  | .found i => xs[i]? = some x
  | .missing i =>
    i ≤ xs.length ∧ (∀ y ∈ xs.take i, y < x) ∧ ∀ y ∈ xs.drop i, x < y

/-- The place of the last entry not above the one that was searched for.
There is none before the first place. -/
def floor? : Search → Option Nat
  | .found i => some i
  | .missing 0 => none
  | .missing (i + 1) => some i

end Search

/-- The place of the last entry not above `x` among the `size` entries from
`base` on, if the first one is such an entry. There is no answer once an
entry is looked up outside of the list. -/
def halve? (xs : List Nat) (x base size : Nat) : Option Nat :=
  if size ≤ 1 then some base
  else xs[base + size / 2]?.bind fun y =>
    halve? xs x (if x < y then base else base + size / 2) (size - size / 2)
termination_by size
decreasing_by omega

/-- Search a list in increasing order by halving. -/
def search? (xs : List Nat) (x : Nat) : Option Search :=
  if xs.isEmpty then some (.missing 0)
  else (halve? xs x 0 xs.length).bind fun i => xs[i]?.map fun y =>
    if y = x then .found i else if y < x then .missing (i + 1) else .missing i

variable {xs : List Nat} {x y z base size i j : Nat}

/-! ## Places in a list -/

theorem exists_of_mem_take (h : y ∈ xs.take i) : ∃ j < i, xs[j]? = some y := by
  obtain ⟨j, hj⟩ := List.mem_iff_getElem?.mp h
  rw [List.getElem?_take] at hj
  split at hj
  · next hlt => exact ⟨j, hlt, hj⟩
  · cases hj

theorem exists_of_mem_drop (h : y ∈ xs.drop i) : ∃ j ≥ i, xs[j]? = some y := by
  obtain ⟨j, hj⟩ := List.mem_iff_getElem?.mp h
  rw [List.getElem?_drop] at hj
  exact ⟨i + j, Nat.le_add_right i j, hj⟩

theorem lt_of_getElem? (h : xs.Pairwise (· < ·)) (hi : xs[i]? = some y)
    (hj : xs[j]? = some z) (hij : i < j) : y < z := by
  obtain ⟨hlti, rfl⟩ := List.getElem?_eq_some_iff.mp hi
  obtain ⟨hltj, rfl⟩ := List.getElem?_eq_some_iff.mp hj
  exact List.pairwise_iff_getElem.mp h i j hlti hltj hij

theorem le_of_getElem? (h : xs.Pairwise (· < ·)) (hi : xs[i]? = some y)
    (hj : xs[j]? = some z) (hij : i ≤ j) : y ≤ z := by
  rcases Nat.lt_or_eq_of_le hij with hlt | rfl
  · exact Nat.le_of_lt (lt_of_getElem? h hi hj hlt)
  · exact Nat.le_of_eq (Option.some.inj (hi.symm.trans hj))

/-! ## Halving -/

/-- Where the search has come to: the part that is left lies inside of the
list, everything behind it is too large, and its first entry is not, unless
nothing was ruled out on that side. -/
structure Narrowed (xs : List Nat) (x base size : Nat) : Prop where
  nonempty : 0 < size
  inside : base + size ≤ xs.length
  below : base = 0 ∨ ∀ y, xs[base]? = some y → y ≤ x
  above : ∀ j y, base + size ≤ j → xs[j]? = some y → x < y

namespace Narrowed

/-- One halving keeps to one half or the other. -/
theorem step (hn : Narrowed xs x base size) (h : xs.Pairwise (· < ·))
    (hsize : 1 < size) (hy : xs[base + size / 2]? = some y) :
    Narrowed xs x (if x < y then base else base + size / 2)
      (size - size / 2) := by
  have hinside := hn.inside
  split
  · next hlt =>
    refine ⟨by omega, by omega, hn.below, fun j z hj hz => ?_⟩
    exact Nat.lt_of_lt_of_le hlt (le_of_getElem? h hy hz (by omega))
  · next hle =>
    refine ⟨by omega, by omega, Or.inr fun z hz => ?_, fun j z hj hz =>
      hn.above j z (by omega) hz⟩
    obtain rfl : y = z := Option.some.inj (hy.symm.trans hz)
    exact Nat.not_lt.mp hle

/-- The halvings come to an end inside of the list, with a single entry left. -/
theorem halve? (hn : Narrowed xs x base size) (h : xs.Pairwise (· < ·)) :
    ∃ i, Text.halve? xs x base size = some i ∧ Narrowed xs x i 1 := by
  fun_induction Text.halve? xs x base size with
  | case1 base size hsize =>
    obtain rfl : size = 1 := Nat.le_antisymm hsize hn.nonempty
    exact ⟨base, rfl, hn⟩
  | case2 base size hsize ih =>
    have hmid : base + size / 2 < xs.length := by
      have hinside := hn.inside
      omega
    have hy := List.getElem?_eq_getElem hmid
    rw [hy, Option.bind_some]
    exact ih _ (hn.step h (Nat.not_le.mp hsize) hy)

end Narrowed

/-- **The search always answers**, and the answer is right. -/
theorem search?_answers (h : xs.Pairwise (· < ·)) (x : Nat) :
    ∃ answer, search? xs x = some answer ∧ answer.Answers xs x := by
  rw [search?]
  split
  · next hempty =>
    obtain rfl := List.isEmpty_iff.mp hempty
    exact ⟨_, rfl, Nat.le_refl _, by simp, by simp⟩
  · next hempty =>
    have hstart : Narrowed xs x 0 xs.length := by
      refine ⟨List.length_pos_iff.mpr fun hnil =>
        hempty (by simp [hnil]), by omega, Or.inl rfl, fun j y hj hy => ?_⟩
      rw [List.getElem?_eq_none (by omega)] at hy
      cases hy
    obtain ⟨i, hi, hlast⟩ := hstart.halve? h
    obtain ⟨y, hy⟩ : ∃ y, xs[i]? = some y :=
      ⟨_, List.getElem?_eq_getElem hlast.inside⟩
    rw [hi, Option.bind_some, hy, Option.map_some]
    refine ⟨_, rfl, ?_⟩
    split
    · next heq => exact hy.trans (congrArg some heq)
    · split
      · next hlt =>
        refine ⟨hlast.inside, fun z hz => ?_, fun z hz => ?_⟩
        · obtain ⟨j, hj, hz⟩ := exists_of_mem_take hz
          exact Nat.lt_of_le_of_lt
            (le_of_getElem? h hz hy (Nat.le_of_lt_succ hj)) hlt
        · obtain ⟨j, hj, hz⟩ := exists_of_mem_drop hz
          exact hlast.above j z hj hz
      · next hne hge =>
        -- the entry that is left is too large, so nothing was ruled out
        -- before it
        have hgt : x < y := by omega
        obtain rfl : i = 0 := hlast.below.resolve_right fun hbelow =>
          Nat.not_le.mpr hgt (hbelow _ hy)
        refine ⟨Nat.zero_le _, by simp, fun z hz => ?_⟩
        obtain ⟨j, hj, hz⟩ := exists_of_mem_drop hz
        exact Nat.lt_of_lt_of_le hgt (le_of_getElem? h hy hz hj)

/-! ## What an answer tells -/

/-- The entries not above `x` are those in front of the place where the
larger ones begin. -/
theorem takeWhile_eq_take (hbelow : ∀ y ∈ xs.take i, y ≤ x)
    (habove : ∀ y ∈ xs.drop i, x < y) :
    xs.takeWhile (fun y => decide (y ≤ x)) = xs.take i := by
  have hstop : (xs.drop i).takeWhile (fun y => decide (y ≤ x)) = [] := by
    cases hdrop : xs.drop i with
    | nil => rfl
    | cons y ys =>
      have hy := habove y (by simp [hdrop])
      simp [Nat.not_le.mpr hy]
  conv_lhs => rw [← List.take_append_drop i xs]
  rw [List.takeWhile_append_of_pos fun y hy => decide_eq_true (hbelow y hy),
    hstop, List.append_nil]

/-- If the list begins with an entry not above `x`, any answer gives the
place of the last such entry. -/
theorem Search.Answers.floor? {answer : Search} (ha : answer.Answers xs x)
    (h : xs.Pairwise (· < ·)) (hfirst : xs[0]? = some y) (hy : y ≤ x) :
    ∃ i, answer.floor? = some i ∧ i < xs.length ∧
      xs.takeWhile (fun y => decide (y ≤ x)) = xs.take (i + 1) := by
  cases answer with
  | found i =>
    have hi : xs[i]? = some x := ha
    refine ⟨i, rfl, (List.getElem?_eq_some_iff.mp hi).1,
      takeWhile_eq_take (fun z hz => ?_) fun z hz => ?_⟩
    · obtain ⟨j, hj, hz⟩ := exists_of_mem_take hz
      exact le_of_getElem? h hz hi (Nat.le_of_lt_succ hj)
    · obtain ⟨j, hj, hz⟩ := exists_of_mem_drop hz
      exact lt_of_getElem? h hi hz hj
  | missing i =>
    obtain ⟨hi, hbelow, habove⟩ := ha
    cases i with
    | zero =>
      have hmem : y ∈ xs.drop 0 := by simpa using List.mem_of_getElem? hfirst
      exact absurd hy (Nat.not_le.mpr (habove y hmem))
    | succ i =>
      exact ⟨i, rfl, hi, takeWhile_eq_take (fun z hz =>
        Nat.le_of_lt (hbelow z hz)) habove⟩

end TreeLint.Text
