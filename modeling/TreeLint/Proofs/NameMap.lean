import TreeLint.NameMap
import Mathlib.Data.List.Forall2
import Mathlib.Data.List.Nodup
import Mathlib.Data.List.Perm.Basic
import Mathlib.Data.String.Basic
import Mathlib.Data.List.Sort

/-!
# Maps from names keep their order

Inserting keeps the names of a map in increasing order, and a map made from
pairs with different names holds exactly those pairs. So two maps made from
the same pairs are the same, in whatever order the pairs come; if the values
are not the same but related, so are the maps, name by name (`Rel`). Names
alone are put in order in the same way, and the first of them that passes a
test is the least (`find?_sortedNames_eq_some_iff`).

Specification, §8: answers do not depend on the order in which things were
given.
-/

namespace TreeLint.NameMap

variable {α : Type} {map : NameMap α} {name : String}

/-- The names increase strictly. -/
def Sorted (map : NameMap α) : Prop := map.names.Pairwise (· < ·)

theorem Sorted.nodup (h : map.Sorted) : map.names.Nodup :=
  h.imp ne_of_lt

/-- Inserting adds one name, unless it is there already. -/
theorem mem_names_insert (x : String) (value : α) :
    x ∈ (insert name value map).names ↔ x = name ∨ x ∈ map.names := by
  induction map with
  | nil => simp [insert, names]
  | cons p rest ih =>
    obtain ⟨n, v⟩ := p
    simp only [insert, names] at ih ⊢
    split_ifs with hlt heq
    · simp
    · subst heq
      simp
    · simp only [List.map_cons, List.mem_cons, ih]
      tauto

/-- **Inserting keeps the names in order,** each once. -/
theorem Sorted.insert (h : map.Sorted) (name : String) (value : α) :
    (NameMap.insert name value map).Sorted := by
  -- By induction on the map: the new name goes in front, takes the place of
  -- an equal one, or goes into the rest.
  induction map with
  | nil => exact List.pairwise_singleton _ _
  | cons p rest ih =>
    obtain ⟨n, v⟩ := p
    have hrest : Sorted rest := h.of_cons
    have hn : ∀ x ∈ names rest, n < x := fun x hx =>
      List.rel_of_pairwise_cons h hx
    simp only [NameMap.insert]
    split_ifs with hlt heq
    · refine List.pairwise_cons.mpr ⟨fun x hx => ?_, h⟩
      rcases List.mem_cons.mp hx with rfl | hx
      · exact hlt
      · exact hlt.trans (hn x hx)
    · subst heq
      exact List.pairwise_cons.mpr ⟨hn, hrest⟩
    · refine List.pairwise_cons.mpr ⟨fun x hx => ?_, ih hrest⟩
      rcases (mem_names_insert x value).mp hx with rfl | hx
      · exact lt_of_le_of_ne (not_lt.mp hlt) (Ne.symm heq)
      · exact hn x hx

/-- A new name is added and nothing else changes. -/
theorem insert_perm (hn : name ∉ map.names) (value : α) :
    (insert name value map).Perm ((name, value) :: map) := by
  induction map with
  | nil => exact List.Perm.refl _
  | cons p rest ih =>
    obtain ⟨n, v⟩ := p
    simp only [names, List.map_cons, List.mem_cons, not_or] at hn
    simp only [insert]
    split_ifs with hlt heq
    · exact List.Perm.refl _
    · exact absurd heq hn.1
    · exact ((ih hn.2).cons _).trans (List.Perm.swap _ _ _)

/-- What is found is in the map. -/
theorem mem_of_find? {a : α} (h : find? name map = some a) :
    a ∈ map.values := by
  induction map with
  | nil => cases h
  | cons p map ih =>
    simp only [find?] at h
    split at h
    · cases h
      exact List.mem_cons_self
    · exact List.mem_cons_of_mem _ (ih h)

/-- It is in the map under the name that was looked up. -/
theorem mem_entries_of_find? {a : α} (h : find? name map = some a) :
    (name, a) ∈ map := by
  induction map with
  | nil => cases h
  | cons p map ih =>
    simp only [find?] at h
    split at h
    · next heq =>
      cases h
      subst heq
      exact List.mem_cons_self
    · exact List.mem_cons_of_mem _ (ih h)

theorem contains_iff : contains name map = true ↔ name ∈ map.names := by
  induction map with
  | nil => simp [contains, find?, names]
  | cons p map ih =>
    simp only [contains, find?, names, List.map_cons, List.mem_cons] at ih ⊢
    split_ifs with heq
    · simp [heq]
    · rw [ih]
      simp [Ne.symm heq]

/-- The entry of a name is what looking it up gives. -/
theorem Sorted.find?_of_mem (h : map.Sorted) {e : String × α}
    (he : e ∈ map) : find? e.1 map = some e.2 := by
  have hin : contains e.1 map = true :=
    contains_iff.mpr (List.mem_map_of_mem he)
  obtain ⟨a, ha⟩ := Option.isSome_iff_exists.mp hin
  have hsame : (e.1, a) = e :=
    List.inj_on_of_nodup_map h.nodup (mem_entries_of_find? ha) he rfl
  rw [ha, ← hsame]

/-- Inserting brings in one entry at most. -/
theorem mem_insert {a : α} {e : String × α} (h : e ∈ insert name a map) :
    e = (name, a) ∨ e ∈ map := by
  induction map with
  | nil => exact Or.inl (List.mem_singleton.mp h)
  | cons p map ih =>
    simp only [insert] at h
    split_ifs at h
    · exact List.mem_cons.mp h
    · exact (List.mem_cons.mp h).imp id (List.mem_cons_of_mem _)
    · rcases List.mem_cons.mp h with rfl | h
      · exact Or.inr List.mem_cons_self
      · exact (ih h).imp id (List.mem_cons_of_mem _)

theorem mem_values_insert {a b : α} (h : b ∈ (insert name a map).values) :
    b = a ∨ b ∈ map.values := by
  obtain ⟨e, he, rfl⟩ := List.mem_map.mp h
  exact (mem_insert he).imp (congrArg Prod.snd) List.mem_map_of_mem

/-- The name has its new value, and the others have theirs. -/
theorem find?_insert (x : String) (value : α) :
    find? x (insert name value map) = if name = x then some value
      else find? x map := by
  induction map with
  | nil => rfl
  | cons p map ih =>
    obtain ⟨n, v⟩ := p
    simp only [insert]
    by_cases hx : name = x
    · rw [if_pos hx] at ih ⊢
      split_ifs with hlt heq
      · simp [find?, hx]
      · simp [find?, hx]
      · rw [find?, if_neg (fun h => heq (hx.trans h.symm)), ih]
    · rw [if_neg hx] at ih ⊢
      split_ifs with hlt heq
      · simp [find?, hx]
      · simp [find?, ← heq, hx]
      · rw [find?, find?, ih]

/-- Giving a name of the map another value changes nothing else. -/
theorem Sorted.insert_eq_map (h : map.Sorted) (hname : name ∈ map.names)
    (value : α) : NameMap.insert name value map =
      map.map fun e => (e.1, if e.1 = name then value else e.2) := by
  induction map with
  | nil => cases hname
  | cons p map ih =>
    obtain ⟨n, v⟩ := p
    have hn : ∀ x ∈ names map, n < x := fun x hx =>
      List.rel_of_pairwise_cons h hx
    rcases List.mem_cons.mp hname with rfl | hmem
    · have hrest : map.map (fun e => (e.1, if e.1 = name then value else e.2)) =
          map := by
        refine (List.map_congr_left fun e he => ?_).trans (List.map_id map)
        have hne : e.1 ≠ name := ne_of_gt (hn e.1 (List.mem_map_of_mem he))
        rw [if_neg hne]
        rfl
      simp [NameMap.insert, hrest]
    · have hlt := hn name hmem
      simp [NameMap.insert, lt_asymm hlt, ne_of_gt hlt, ne_of_lt hlt,
        ih h.of_cons hmem]

/-! ## Maps from lists of pairs -/

theorem sorted_foldl (pairs : List (String × α)) (h : map.Sorted) :
    Sorted (pairs.foldl (fun map p => insert p.1 p.2 map) map) := by
  induction pairs generalizing map with
  | nil => exact h
  | cons p pairs ih => exact ih (h.insert p.1 p.2)

theorem sorted_ofList (pairs : List (String × α)) : Sorted (ofList pairs) :=
  sorted_foldl pairs List.Pairwise.nil

/-- Pairs with different names are all in the map that is made from them,
and nothing else is. -/
theorem foldl_perm (pairs : List (String × α))
    (h : ((pairs ++ map).map Prod.fst).Nodup) :
    (pairs.foldl (fun map p => insert p.1 p.2 map) map).Perm
      (pairs ++ map) := by
  induction pairs generalizing map with
  | nil => exact List.Perm.refl _
  | cons p pairs ih =>
    simp only [List.cons_append, List.map_cons, List.nodup_cons,
      List.map_append, List.mem_append,
      not_or] at h
    have hins : (insert p.1 p.2 map).Perm (p :: map) := insert_perm h.1.2 p.2
    have hnext : ((pairs ++ insert p.1 p.2 map).map Prod.fst).Nodup := by
      rw [List.map_append, ((hins.map Prod.fst).append_left _).nodup_iff,
        List.map_cons,
        List.perm_middle.nodup_iff, List.nodup_cons, List.mem_append, not_or]
      exact h
    have hkept : (pairs ++ insert p.1 p.2 map).Perm (p :: (pairs ++ map)) :=
      (hins.append_left pairs).trans List.perm_middle
    exact (ih hnext).trans hkept

/-- Pairs with different names are all kept. -/
theorem ofList_perm {pairs : List (String × α)}
    (h : (pairs.map Prod.fst).Nodup) :
    (ofList pairs).Perm pairs := by
  have hfold : (ofList pairs).Perm (pairs ++ []) :=
    foldl_perm pairs (by rwa [List.append_nil])
  rwa [List.append_nil] at hfold

/-- A map made from pairs holds some of them. -/
theorem mem_of_mem_ofList {pairs : List (String × α)} {e : String × α}
    (h : e ∈ ofList pairs) : e ∈ pairs := by
  have hfold : ∀ (pairs : List (String × α)) (map : NameMap α),
      e ∈ pairs.foldl (fun map p => insert p.1 p.2 map) map →
        e ∈ pairs ∨ e ∈ map := by
    intro pairs
    induction pairs with
    | nil => exact fun map hmem => Or.inr hmem
    | cons p pairs ih =>
      intro map hmem
      rcases ih _ hmem with hpairs | hmap
      · exact Or.inl (List.mem_cons_of_mem p hpairs)
      · rcases mem_insert hmap with rfl | hmap
        · exact Or.inl List.mem_cons_self
        · exact Or.inr hmap
  exact (hfold pairs [] h).resolve_right List.not_mem_nil

theorem mem_names_foldl (pairs : List (String × α)) (x : String) :
    x ∈ (pairs.foldl (fun map p => insert p.1 p.2 map) map).names ↔
      x ∈ pairs.map Prod.fst ∨ x ∈ map.names := by
  induction pairs generalizing map with
  | nil => simp
  | cons p pairs ih =>
    rw [List.foldl_cons, ih, mem_names_insert, List.map_cons, List.mem_cons]
    tauto

/-- The pairs of a map make that map, in whatever order they come. -/
theorem Sorted.ofList_of_perm {pairs : List (String × α)} (h : map.Sorted)
    (hperm : List.Perm pairs map) : ofList pairs = map := by
  have hnodup : (pairs.map Prod.fst).Nodup :=
    (hperm.map Prod.fst).nodup_iff.mpr h.nodup
  refine ((ofList_perm hnodup).trans hperm).eq_of_pairwise ?_
    (List.pairwise_map.mp (sorted_ofList pairs)) (List.pairwise_map.mp h)
  intro e d _ _ hlt hgt
  exact absurd hgt (lt_asymm hlt)

/-- Pairs whose names increase are a map already. -/
theorem Sorted.ofList_eq (h : map.Sorted) : ofList map = map :=
  h.ofList_of_perm (List.Perm.refl map)

theorem names_map {β : Type} (f : α → β) (map : NameMap α) :
    names (map.map fun e => (e.1, f e.2)) = map.names := by
  simp [names, Function.comp_def]

theorem Sorted.mapValues {β : Type} (h : map.Sorted) (f : α → β) :
    Sorted (map.map fun e => (e.1, f e.2)) := by
  rw [Sorted, names_map]
  exact h

/-- Entries that are the images of some others up to order are the images
of those others in some order. -/
theorem exists_perm_of_map {α β : Type} {f : α → β} {listed : List β}
    {entries : List α} (h : List.Perm listed (entries.map f)) :
    ∃ l, List.Perm l entries ∧ listed = l.map f := by
  have himages : List.Forall₂ (fun b a => b = f a) (entries.map f) entries :=
    List.forall₂_map_left_iff.mpr (List.forall₂_same.mpr fun _ _ => rfl)
  obtain ⟨l, hl, hperm⟩ := List.perm_comp_forall₂ h himages
  refine ⟨l, hperm, ?_⟩
  rw [← List.forall₂_eq_eq_eq, List.forall₂_map_right_iff]
  exact hl

/-! ## Maps that are related -/

section Related

variable {β : Type} {R : α → β → Prop} {map' : NameMap β} {a : α} {b : β}

/-- Two maps have the same names, and the values of each name are related. -/
def Rel (R : α → β → Prop) (map : NameMap α) (map' : NameMap β) : Prop :=
  List.Forall₂ (fun e d => e.1 = d.1 ∧ R e.2 d.2) map map'

theorem Rel.names_eq (h : Rel R map map') : map.names = map'.names := by
  induction h with
  | nil => rfl
  | cons h _ ih => exact congrArg₂ List.cons h.1 ih

/-- Inserting related values under one name keeps maps related. -/
theorem Rel.insert (h : Rel R map map') (name : String) (hab : R a b) :
    Rel R (NameMap.insert name a map) (NameMap.insert name b map') := by
  induction h with
  | nil => exact .cons ⟨rfl, hab⟩ .nil
  | @cons e d _ _ h hrest ih =>
    obtain ⟨n, v⟩ := e
    obtain ⟨n', v'⟩ := d
    obtain ⟨rfl, hv⟩ := h
    simp only [NameMap.insert]
    split_ifs with hlt heq
    · exact .cons ⟨rfl, hab⟩ (.cons ⟨rfl, hv⟩ hrest)
    · exact .cons ⟨rfl, hab⟩ hrest
    · exact .cons ⟨rfl, hv⟩ ih

theorem rel_ofList {pairs : List (String × α)} {pairs' : List (String × β)}
    (hpairs : List.Forall₂ (fun e d => e.1 = d.1 ∧ R e.2 d.2) pairs pairs') :
    Rel R (ofList pairs) (ofList pairs') := by
  refine List.rel_foldl (P := Rel R) ?_ List.Forall₂.nil hpairs
  rintro map map' h ⟨n, a⟩ ⟨_, b⟩ ⟨rfl, hab⟩
  exact h.insert n hab

/-- Look-ups in related maps find related values, or both find nothing. -/
theorem Rel.find? (h : Rel R map map') (name : String) :
    Option.Rel R (NameMap.find? name map) (NameMap.find? name map') := by
  induction h with
  | nil => exact .none
  | @cons e d _ _ h _ ih =>
    obtain ⟨n, v⟩ := e
    obtain ⟨n', v'⟩ := d
    obtain ⟨rfl, hv⟩ := h
    simp only [NameMap.find?]
    split_ifs
    · exact .some hv
    · exact ih

/-- Names that increase leave only one order, so maps with related entries
are related. -/
theorem Sorted.rel_of_perm (h : map.Sorted) (h' : map'.Sorted)
    {pairs : List (String × α)} {pairs' : List (String × β)}
    (hperm : List.Perm map pairs)
    (hpairs : List.Forall₂ (fun e d => e.1 = d.1 ∧ R e.2 d.2) pairs pairs')
    (hperm' : List.Perm pairs' map') : Rel R map map' := by
  obtain ⟨k, hk, hkperm⟩ := List.perm_comp_forall₂ hperm hpairs
  have hrel : Rel R map k := hk
  have hsorted : k.Pairwise fun e d => e.1 < d.1 := by
    rw [Sorted, hrel.names_eq] at h
    exact List.pairwise_map.mp h
  have heq : k = map' := by
    refine (hkperm.trans hperm').eq_of_pairwise ?_ hsorted
      (List.pairwise_map.mp h')
    intro e d _ _ hlt hgt
    exact absurd hgt (lt_asymm hlt)
  exact heq ▸ hrel

end Related

end TreeLint.NameMap

namespace TreeLint

theorem mem_sortedNames {names : List String} {x : String} :
    x ∈ sortedNames names ↔ x ∈ names := by
  rw [sortedNames, NameMap.ofList, NameMap.mem_names_foldl, List.map_map]
  simp [NameMap.names, Function.comp_def]

theorem sorted_sortedNames (names : List String) :
    (sortedNames names).Pairwise (· < ·) :=
  NameMap.sorted_ofList _

/-- Which names there are decides, not how they are listed. -/
theorem sortedNames_congr {names names' : List String}
    (h : ∀ x, x ∈ names ↔ x ∈ names') :
    sortedNames names = sortedNames names' :=
  (sorted_sortedNames names).eq_of_mem_iff (sorted_sortedNames names')
    fun x => by rw [mem_sortedNames, mem_sortedNames, h]

/-- Of several names that pass a test the least one is found. -/
theorem find?_sortedNames_eq_some_iff {names : List String}
    {test : String → Bool} {x : String} :
    (sortedNames names).find? test = some x ↔
      x ∈ names ∧ test x = true ∧ ∀ y ∈ names, test y = true → x ≤ y := by
  have hleast : ∀ {x}, (sortedNames names).find? test = some x → ∀ y ∈ names,
      test y = true → x ≤ y := by
    intro x hx y hy htest
    obtain ⟨-, front, back, hsplit, hfront⟩ :=
      List.find?_eq_some_iff_append.mp hx
    have hsorted := sorted_sortedNames names
    rw [hsplit, List.pairwise_append, List.pairwise_cons] at hsorted
    rw [← mem_sortedNames, hsplit, List.mem_append, List.mem_cons] at hy
    rcases hy with hy | rfl | hy
    · have hfails := hfront y hy
      simp [htest] at hfails
    · exact le_refl y
    · exact le_of_lt (hsorted.2.1.1 y hy)
  constructor
  · intro hx
    exact ⟨mem_sortedNames.mp (List.mem_of_find?_eq_some hx),
      List.find?_some hx, hleast hx⟩
  · rintro ⟨hx, htest, hfirst⟩
    cases hfound : (sortedNames names).find? test with
    | none =>
      exact absurd htest (List.find?_eq_none.mp hfound x
        (mem_sortedNames.mpr hx))
    | some y =>
      have hy : y ∈ names := mem_sortedNames.mp
        (List.mem_of_find?_eq_some hfound)
      exact congrArg some (le_antisymm (hleast hfound x hx htest)
        (hfirst y hy (List.find?_some hfound)))

end TreeLint
