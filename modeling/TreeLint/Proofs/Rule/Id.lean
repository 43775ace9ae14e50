import Mathlib.Data.List.TakeWhile
import TreeLint.Rule.Id

/-!
# The grammar of rule identities

An identity is well formed if it is a rule set and a name with a colon
between them, both of them words. Validity is decided by cutting at the
first colon. A word has no colon in it, so no other cut has to be tried, and
a further colon makes the name no word: the identities found valid are the
well-formed ones (`isValid_iff`), and the parts of a well-formed identity
are its two words (`WellFormed.parts`).

Specification, §3.
-/

namespace TreeLint.RuleId

variable {id : RuleId} {c : Char} {w set name : String}
  {before after : List Char}

/-- The characters words are made of. -/
def alphabet : String := "abcdefghijklmnopqrstuvwxyz0123456789-"

/-- One or more characters of the alphabet. -/
structure IsWord (w : String) : Prop where
  nonempty : w ≠ ""
  chars : ∀ c ∈ w.toList, c ∈ alphabet.toList

/-- A rule set and a name with a colon between them. -/
def WellFormed (id : RuleId) : Prop :=
  ∃ set name : String, IsWord set ∧ IsWord name ∧ id = set ++ ":" ++ name

/-! ## Words -/

/-- The characters of a word, one by one: lower-case letters, digits and the
hyphen (specification, §3). -/
theorem isWordChar_iff : isWordChar c = true ↔ c ∈ alphabet.toList := by
  -- beyond the first 128 characters there is neither
  have hascii : ∀ n : Fin 128, isWordChar (Char.ofNat n) =
      alphabet.toList.contains (Char.ofNat n) := by decide +kernel
  have hall : (alphabet.toList.all fun c => decide (c.toNat < 128)) = true := by
    decide +kernel
  by_cases hc : c.toNat < 128
  · have heq := hascii ⟨c.toNat, hc⟩
    simp only [Char.ofNat_toNat] at heq
    rw [heq, List.contains_iff_mem]
  · constructor
    · intro hword
      simp only [isWordChar, Char.isDigit, Bool.or_eq_true, Bool.and_eq_true,
        decide_eq_true_eq, beq_iff_eq,
        Char.le_def, UInt32.le_iff_toNat_le] at hword
      have hval : c.val.toNat = c.toNat := rfl
      rcases hword with (hletter | hdigit) | rfl
      · have hz : 'z'.val.toNat = 122 := rfl
        omega
      · have hnine : '9'.val.toNat = 57 := rfl
        omega
      · exact absurd (by decide) hc
    · intro hmem
      exact absurd (by simpa using List.all_eq_true.mp hall c hmem) hc

theorem isWord_iff : isWord w.toList = true ↔ IsWord w := by
  simp only [isWord, Bool.and_eq_true, Bool.not_eq_true',
    List.isEmpty_eq_false_iff, List.all_eq_true, isWordChar_iff]
  constructor
  · rintro ⟨hne, hchars⟩
    exact ⟨by simpa using hne, hchars⟩
  · rintro ⟨hne, hchars⟩
    exact ⟨by simpa using hne, hchars⟩

/-- No word has a colon in it, so the colon of an identity is the only one.
-/
theorem IsWord.colon_not_mem (h : IsWord w) : ':' ∉ w.toList := fun hmem =>
  absurd (h.chars _ hmem) (by decide)

/-! ## Cutting at the first colon -/

/-- Cutting at the first colon finds it if there is one. -/
theorem split?_eq_some_iff :
    split? id = some (before, after) ↔ id.toList = before ++ ':' :: after ∧
      ':' ∉ before := by
  rw [split?]
  constructor
  · intro h
    split at h
    · cases h
    · next c rest hrest =>
      obtain ⟨rfl, rfl⟩ := Prod.mk.inj (Option.some.inj h)
      have hhead : c = ':' := by
        have hfirst := List.head?_dropWhile_not (· != ':') id.toList
        simpa [hrest] using hfirst
      subst hhead
      refine ⟨?_, fun hmem => ?_⟩
      · rw [← hrest, List.takeWhile_append_dropWhile]
      · simpa using List.mem_takeWhile_imp hmem
  · rintro ⟨hsplit, hbefore⟩
    have hpass : ∀ c ∈ before, (c != ':') = true := fun c hc => by
      rw [bne_iff_ne]
      rintro rfl
      exact hbefore hc
    rw [hsplit, List.dropWhile_append_of_pos hpass,
      List.takeWhile_append_of_pos hpass]
    simp

/-- The parts of two words with a colon between them are the two words. -/
theorem split?_words (hset : IsWord set) :
    split? (set ++ ":" ++ name) = some (set.toList, name.toList) :=
  split?_eq_some_iff.mpr ⟨by simp, hset.colon_not_mem⟩

/-- **The valid identities are the well-formed ones.** -/
theorem isValid_iff : isValid id = true ↔ WellFormed id := by
  rw [isValid]
  constructor
  · intro h
    split at h
    · next before after hsplit =>
      rw [Bool.and_eq_true] at h
      refine ⟨String.ofList before, String.ofList after,
        isWord_iff.mp (by simpa using h.1),
        isWord_iff.mp (by simpa using h.2), String.toList_injective ?_⟩
      simpa using (split?_eq_some_iff.mp hsplit).1
    · cases h
  · rintro ⟨set, name, hset, hname, rfl⟩
    simp [split?_words hset, isWord_iff.mpr hset, isWord_iff.mpr hname]

instance : DecidablePred WellFormed := fun _ => decidable_of_iff _ isValid_iff

/-- The rule set and the name of a well-formed identity are words and give
it back. -/
theorem WellFormed.parts (h : WellFormed id) :
    ruleSet id ++ ":" ++ RuleId.name id = id ∧ IsWord (ruleSet id) ∧
      IsWord (RuleId.name id) := by
  obtain ⟨set, name, hset, hname, rfl⟩ := h
  have hruleSet : ruleSet (set ++ ":" ++ name) = set := by
    simp [ruleSet, split?_words hset]
  have hown : RuleId.name (set ++ ":" ++ name) = name := by
    simp [RuleId.name, split?_words hset]
  rw [hruleSet, hown]
  exact ⟨rfl, hset, hname⟩

end TreeLint.RuleId
