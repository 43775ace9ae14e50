import TreeLint.Proofs.Json.RoundTrip
import Mathlib.Data.List.Permutation

/-!
# The order of members does not matter

Whoever writes a value may list the members of its objects in any order:
as they were declared, as they were put in, or as a hash table happens to
hold them. `Value.Reorders` relates what is written to the value that is
meant. What is read is the value that is meant (`value?_of_reorders`),
since members are put back in the order of their names, as long as no name
occurs twice and the value does not nest too deeply.

Specification, §12: settings are a document with named members.
-/

namespace TreeLint.Json

/-! ## Members as lists -/

theorem Members.toList_insert (name : String) (v : Value) :
    ∀ ms : Members,
      (ms.insert name v).toList = NameMap.insert name v ms.toList
  | .nil => rfl
  | .cons n w ms => by
    rw [Members.insert, Members.toList, NameMap.insert]
    split_ifs <;> simp [Members.toList, Members.toList_insert name v ms]

theorem Members.toList_injective :
    ∀ {ms ms' : Members}, ms.toList = ms'.toList → ms = ms'
  | .nil, .nil, _ => rfl
  | .cons n v ms, .cons n' v' ms', h => by
    obtain ⟨hhead, htail⟩ := List.cons.inj h
    cases hhead
    rw [Members.toList_injective htail]
  | .nil, .cons .., h => by cases h
  | .cons .., .nil, h => by cases h

/-- Members made from a list of pairs are the map made from it. -/
theorem Members.toList_ofList (pairs : List (String × Value)) :
    (ofList pairs).toList = NameMap.ofList pairs := by
  have hfold : ∀ (pairs : List (String × Value)) (ms : Members),
      (pairs.foldl (fun ms p => ms.insert p.1 p.2) ms).toList =
        pairs.foldl (fun map p => NameMap.insert p.1 p.2 map) ms.toList := by
    intro pairs
    induction pairs with
    | nil => exact fun ms => rfl
    | cons p pairs ih =>
      exact fun ms => by
        rw [List.foldl_cons, ih, toList_insert, List.foldl_cons]
  exact hfold pairs .nil

theorem Members.ordered_of_mem : ∀ {ms : Members} {e : String × Value},
    ms.Ordered → e ∈ ms.toList → e.2.Ordered
  | .cons name v r, e, ho, h => by
    rcases List.mem_cons.mp h with rfl | h
    · exact ho.1
    · exact Members.ordered_of_mem ho.2 h

theorem Members.depth_le_iff {k : Nat} : ∀ {ms : Members},
    ms.depth ≤ k ↔ ∀ e ∈ ms.toList, e.2.depth ≤ k
  | .nil => by simp [depth, toList]
  | .cons name v r => by
    have hrest : r.depth ≤ k ↔ _ := depth_le_iff
    simp [depth, toList, hrest]

theorem Members.mem_numbers {n : Number} : ∀ {ms : Members},
    n ∈ ms.numbers ↔ ∃ e ∈ ms.toList, n ∈ e.2.numbers
  | .nil => by simp [numbers, toList]
  | .cons name v r => by
    have hrest : n ∈ r.numbers ↔ _ := mem_numbers
    simp [numbers, toList, hrest]

theorem Members.depth_le_of_mem {ms : Members} {e : String × Value}
    (he : e ∈ ms.toList) : e.2.depth ≤ ms.depth :=
  depth_le_iff.mp (le_refl ms.depth) e he

/-! ## Listed in any order -/

mutual

/-- `w.Reorders v`: this is the value `v`, with the members of every object
in any order. -/
def Value.Reorders : Value → Value → Prop
  | .null, v => v = .null
  | .bool b, v => v = .bool b
  | .number n, v => v = .number n
  | .text s, v => v = .text s
  | .array items, v => ∃ items', v = .array items' ∧ items.Reorders items'
  | .object members, v => ∃ members' listed, v = .object members' ∧
    List.Perm listed members'.toList ∧ members.Lists listed

def Items.Reorders : Items → Items → Prop
  | .nil, items => items = .nil
  | .cons w r, items =>
    ∃ v r', items = .cons v r' ∧ w.Reorders v ∧ r.Reorders r'

/-- These members have the names and values in the list, one by one; the
members inside the values come in any order. -/
def Members.Lists : Members → List (String × Value) → Prop
  | .nil, listed => listed = []
  | .cons n w r, listed =>
    ∃ v rest, listed = (n, v) :: rest ∧ w.Reorders v ∧ r.Lists rest

end

mutual

/-- A value as it is kept is one of its written forms. -/
theorem Value.reorders_self : ∀ v : Value, v.Reorders v
  | .null | .bool _ | .number _ | .text _ => rfl
  | .array items => ⟨items, rfl, items.reorders_self⟩
  | .object members =>
    ⟨members, members.toList, rfl, List.Perm.refl _, members.lists_toList⟩

theorem Items.reorders_self : ∀ items : Items, items.Reorders items
  | .nil => rfl
  | .cons v r => ⟨v, r, rfl, v.reorders_self, r.reorders_self⟩

theorem Members.lists_toList : ∀ ms : Members, ms.Lists ms.toList
  | .nil => rfl
  | .cons _ v r => ⟨v, r.toList, rfl, v.reorders_self, r.lists_toList⟩

end

/-- Members in any order, as a list that is the same up to order. -/
theorem Value.Reorders.exists_lists {w : Value} {members : Members}
    (h : w.Reorders (.object members)) :
    ∃ ms listed, w = .object ms ∧ List.Perm listed members.toList ∧
      ms.Lists listed := by
  cases w with
  | object ms =>
    obtain ⟨members', listed, heq, hperm, hlists⟩ := h
    cases heq
    exact ⟨ms, listed, rfl, hperm, hlists⟩
  | null | bool | number | text => cases h
  | array =>
    obtain ⟨_, heq, -⟩ := h
    cases heq

/-- Only members can be reordered. -/
theorem Value.Reorders.eq_of_depth {w v : Value} (h : w.Reorders v)
    (hd : v.depth = 0) : w = v := by
  cases w with
  | null | bool | number | text => exact h.symm
  | array =>
    obtain ⟨_, rfl, -⟩ := h
    simp [Value.depth] at hd
  | object =>
    obtain ⟨_, _, rfl, -⟩ := h
    simp [Value.depth] at hd

theorem Members.Lists.eq_nil {ms : Members} (h : ms.Lists []) : ms = .nil := by
  cases ms with
  | nil => rfl
  | cons n w r =>
    obtain ⟨_, _, heq, -⟩ := h
    cases heq

theorem Members.Lists.exists_cons {ms : Members} {n : String} {v : Value}
    {listed : List (String × Value)} (h : ms.Lists ((n, v) :: listed)) :
    ∃ w r, ms = .cons n w r ∧ w.Reorders v ∧ r.Lists listed := by
  cases ms with
  | nil => cases h
  | cons n' w r =>
    obtain ⟨_, _, heq, hw, hr⟩ := h
    cases heq
    exact ⟨w, r, rfl, hw, hr⟩

/-! ## Taking whole values -/

mutual

/-- **What is read is the value that is meant**, however its members were
listed. -/
theorem Value.value?_of_reorders : ∀ (w v : Value) (depth : Nat),
    w.Reorders v → v.Ordered → depth + v.depth ≤ maxDepth →
    w.document.value? depth = some v
  | .null, _, _, h, _, _ => by cases h; rfl
  | .bool _, _, _, h, _, _ => by cases h; rfl
  | .number _, _, _, h, _, _ => by cases h; rfl
  | .text _, _, _, h, _, _ => by cases h; rfl
  | .array items, _, depth, h, ho, hd => by
    obtain ⟨items', rfl, hitems⟩ := h
    rw [Value.depth] at hd
    rw [Value.document, Document.value?, if_pos (by omega),
      Items.value?_of_reorders items items' (depth + 1) hitems ho
        (by omega), Option.map_some]
  | .object members, _, depth, h, ho, hd => by
    obtain ⟨members', listed, rfl, hperm, hlists⟩ := h
    rw [Value.depth] at hd
    obtain ⟨out, hout, hlist⟩ := Members.value?_of_lists members listed
      (depth + 1) .nil hlists
      (fun e he => Members.ordered_of_mem ho.2 (hperm.mem_iff.mp he))
      (fun e he => by
        have := Members.depth_le_of_mem (hperm.mem_iff.mp he)
        omega)
    have hout' : out = members' := by
      refine Members.toList_injective (hlist.trans ?_)
      exact ho.1.ofList_of_perm hperm
    rw [Value.document, Document.value?, if_pos (by omega), hout,
      Option.map_some, hout']

/-- Items are read back one by one, each from any order of its members. -/
theorem Items.value?_of_reorders : ∀ (ws vs : Items) (depth : Nat),
    ws.Reorders vs → vs.Ordered → depth + vs.depth ≤ maxDepth →
    ws.document.value? depth = some vs
  | .nil, _, _, h, _, _ => by cases h; rfl
  | .cons w r, _, depth, h, ho, hd => by
    obtain ⟨v, r', rfl, hw, hr⟩ := h
    rw [Items.depth] at hd
    rw [Items.document, Sequence.value?,
      Value.value?_of_reorders w v depth hw ho.1 (by omega),
      Items.value?_of_reorders r r' depth hr ho.2 (by omega)]

/-- Members are added one by one to those read so far. -/
theorem Members.value?_of_lists : ∀ (ms : Members)
    (listed : List (String × Value)) (depth : Nat) (sofar : Members),
    ms.Lists listed → (∀ e ∈ listed, e.2.Ordered) →
    (∀ e ∈ listed, depth + e.2.depth ≤ maxDepth) →
    ∃ out, ms.document.value? depth sofar = some out ∧ out.toList =
      listed.foldl (fun map e => NameMap.insert e.1 e.2 map) sofar.toList
  | .nil, _, _, sofar, h, _, _ => by cases h; exact ⟨sofar, rfl, rfl⟩
  | .cons n w r, _, depth, sofar, h, ho, hd => by
    obtain ⟨v, rest, rfl, hw, hr⟩ := h
    obtain ⟨hov, horest⟩ := List.forall_mem_cons.mp ho
    obtain ⟨hdv, hdrest⟩ := List.forall_mem_cons.mp hd
    obtain ⟨out, hout, hlist⟩ := Members.value?_of_lists r rest depth
      (sofar.insert n v) hr horest hdrest
    refine ⟨out, ?_, ?_⟩
    · have hvalue := Value.value?_of_reorders w v depth hw hov hdv
      simp only [Members.document, Mapping.value?, hvalue, hout]
    · rw [hlist, Members.toList_insert, List.foldl_cons]

end

end TreeLint.Json
