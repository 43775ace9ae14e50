import TreeLint.Json.Document
import TreeLint.Json.Printer
import Mathlib.Data.List.TakeWhile
import Mathlib.Data.Nat.Digits.Defs

/-!
# Numbers and texts are read as they were written

Reading goes from left to right and takes as much as it can, so what was
written is read back only if what follows cannot be taken for a part of it.
After a number that is the end, a comma or a closing bracket (`Closes`); a
text ends with its own quote. Integers that can be kept are read back
(`Number.readsBack_int`), and so is every text (`readText_write`). Numbers
with a fraction are another matter: reading rounds more than once.

Specification, §12.
-/

namespace TreeLint.Json

/-! ## Scanning

A number is read up to the first character that cannot go on with it. What
follows in a written value closes it, so reading goes on right there; one
lemma for each part of a number. -/

section Scanning

variable {p : Char → Bool} {cs rest : List Char}

theorem takeWhile_append_of_stop (h : ∀ c ∈ rest.head?, p c = false) :
    (cs ++ rest).takeWhile p = cs.takeWhile p := by
  induction cs with
  | nil =>
    cases rest with
    | nil => rfl
    | cons c rest => simp [h c rfl]
  | cons c cs ih => by_cases hc : p c = true <;> simp [hc, ih]

theorem dropWhile_append_of_stop (h : ∀ c ∈ rest.head?, p c = false) :
    (cs ++ rest).dropWhile p = cs.dropWhile p ++ rest := by
  induction cs with
  | nil =>
    cases rest with
    | nil => rfl
    | cons c rest => simp [h c rfl]
  | cons c cs ih => by_cases hc : p c = true <;> simp [hc, ih]

end Scanning

/-- What may follow a value inside another one, or at the end. -/
def Closes (rest : List Char) : Prop :=
  ∀ c ∈ rest.head?, c = ',' ∨ c = ']' ∨ c = '\x7d'

section Following

variable {cs rest : List Char} {e : Int} {negative : Bool} {whole : List Char}
  {l : Literal}

theorem Closes.isDigit_eq_false (h : Closes rest) :
    ∀ c ∈ rest.head?, c.isDigit = false := by
  intro c hc
  rcases h c hc with rfl | rfl | rfl <;> rfl

theorem readExponentDigits_append (hrest : Closes rest)
    (h : readExponentDigits negative cs = some (e, [])) :
    readExponentDigits negative (cs ++ rest) = some (e, rest) := by
  simp only [readExponentDigits,
    takeWhile_append_of_stop hrest.isDigit_eq_false,
    dropWhile_append_of_stop hrest.isDigit_eq_false] at h ⊢
  split at h
  · cases h
  · next hdigits =>
    obtain ⟨rfl, hafter⟩ := Prod.mk.inj (Option.some.inj h)
    rw [if_neg hdigits, hafter, List.nil_append]

theorem readExponent_append (hrest : Closes rest)
    (h : readExponent cs = some (e, [])) :
    readExponent (cs ++ rest) = some (e, rest) := by
  unfold readExponent at h
  split at h
  · exact readExponentDigits_append hrest h
  · exact readExponentDigits_append hrest h
  · next hplus hminus =>
    have hcs : cs ≠ [] := by
      rintro rfl
      cases h
    obtain ⟨c, cs, rfl⟩ := List.exists_cons_of_ne_nil hcs
    rw [List.cons_append, readExponent]
    · exact readExponentDigits_append hrest h
    · rintro r hr
      exact hplus cs (by rw [(List.cons.inj hr).1])
    · rintro r hr
      exact hminus cs (by rw [(List.cons.inj hr).1])

theorem readScale_append {scale : Option Int} (hrest : Closes rest)
    (h : readScale cs = some (scale, [])) :
    readScale (cs ++ rest) = some (scale, rest) := by
  cases cs with
  | nil =>
    cases h
    cases rest with
    | nil => rfl
    | cons c rest =>
      have hc : ¬ (c = 'e' ∨ c = 'E') := by
        rcases hrest c rfl with rfl | rfl | rfl <;> decide
      rw [List.nil_append, readScale, if_neg hc]
  | cons c cs =>
    simp only [readScale, List.cons_append] at h ⊢
    split at h
    · next hletter =>
      obtain ⟨⟨e, after⟩, he, heq⟩ := Option.map_eq_some_iff.mp h
      obtain ⟨rfl, rfl⟩ := Prod.mk.inj heq
      rw [if_pos hletter, readExponent_append hrest he, Option.map_some]
    · cases h

theorem readFraction_append (hrest : Closes rest)
    (h : readFraction negative whole cs = some (l, [])) :
    readFraction negative whole (cs ++ rest) = some (l, rest) := by
  unfold readFraction at h
  split at h
  · next fraction =>
    simp only [readFraction, List.cons_append,
      takeWhile_append_of_stop hrest.isDigit_eq_false,
      dropWhile_append_of_stop hrest.isDigit_eq_false]
    dsimp only at h
    split at h
    · cases h
    · next hdigits =>
      obtain ⟨⟨e, after⟩, he, heq⟩ := Option.map_eq_some_iff.mp h
      obtain ⟨rfl, rfl⟩ := Prod.mk.inj heq
      rw [if_neg hdigits, readScale_append hrest he, Option.map_some]
  · next hpoint =>
    obtain ⟨⟨e, after⟩, he, heq⟩ := Option.map_eq_some_iff.mp h
    obtain ⟨rfl, rfl⟩ := Prod.mk.inj heq
    have hnone : ∀ r, cs ++ rest = '.' :: r → False := by
      intro r hr
      cases cs with
      | nil =>
        subst hr
        rcases hrest '.' rfl with hc | hc | hc <;> cases hc
      | cons c cs => exact hpoint cs (by rw [(List.cons.inj hr).1])
    rw [readFraction, readScale_append hrest he, Option.map_some]
    exact hnone

theorem readMagnitude_append (hrest : Closes rest)
    (h : readMagnitude negative cs = some (l, [])) :
    readMagnitude negative (cs ++ rest) = some (l, rest) := by
  simp only [readMagnitude, takeWhile_append_of_stop hrest.isDigit_eq_false,
    dropWhile_append_of_stop hrest.isDigit_eq_false] at h ⊢
  split at h
  · cases h
  · next hwhole => rw [if_neg hwhole, readFraction_append hrest h]

/-- **A number is read in front of anything that closes it** as it is read
alone. -/
theorem readNumber_append (hrest : Closes rest)
    (h : readNumber cs = some (l, [])) :
    readNumber (cs ++ rest) = some (l, rest) := by
  unfold readNumber at h
  split at h
  · exact readMagnitude_append hrest h
  · next hminus =>
    have hcs : cs ≠ [] := by
      rintro rfl
      cases h
    obtain ⟨c, cs, rfl⟩ := List.exists_cons_of_ne_nil hcs
    rw [List.cons_append, readNumber]
    · exact readMagnitude_append hrest h
    · rintro r hr
      exact hminus cs (by rw [(List.cons.inj hr).1])

/-- A number begins with its sign or a digit. -/
theorem head_of_readNumber (h : readNumber cs = some (l, rest)) :
    ∃ c after, cs = c :: after ∧ (c = '-' ∨ c.isDigit = true) := by
  unfold readNumber at h
  split at h
  · exact ⟨_, _, rfl, Or.inl rfl⟩
  · cases cs with
    | nil => cases h
    | cons c after =>
      refine ⟨c, after, rfl, Or.inr ?_⟩
      by_contra hc
      simp [readMagnitude, hc] at h

end Following

/-! ## Integers -/

theorem decimalNumber_toDigits (n : Nat) :
    Literal.decimalNumber (Nat.toDigits 10 n) = n :=
  Nat.ofDigitChars_toDigits (by decide) (by decide)

/-- Digits are appended to a number until they are used up if the result is
small enough. -/
theorem appendDigits_eq {cs : List Char} {n : Nat}
    (h : Nat.ofDigitChars 10 cs n < Number.intBound) :
    Literal.appendDigits n cs = (Nat.ofDigitChars 10 cs n, []) := by
  have hgrows : ∀ (cs : List Char) (n : Nat), n ≤ Nat.ofDigitChars 10 cs n := by
    intro cs
    induction cs with
    | nil => exact fun n => le_rfl
    | cons c cs ih =>
      intro n
      rw [Nat.ofDigitChars_cons]
      exact le_trans (by omega) (ih _)
  induction cs generalizing n with
  | nil => rfl
  | cons c cs ih =>
    rw [Nat.ofDigitChars_cons] at h ⊢
    rw [Literal.appendDigits, if_pos (lt_of_le_of_lt (hgrows cs _) h), ih h]

/-- Only zero is written with a zero in front. -/
theorem eq_zero_of_head_toDigits (n : Nat)
    (h : (Nat.toDigits 10 n).head? = some '0') : n = 0 := by
  induction n using Nat.strongRecOn with
  | ind n ih =>
    by_cases hn : n < 10
    · rw [Nat.toDigits_of_lt_base hn] at h
      have hall : ∀ k < 10, [Nat.digitChar k].head? = some '0' →
          k = 0 := by decide
      exact hall n hn h
    · rw [Nat.toDigits_of_base_le (by decide) (by omega), List.head?_append]
        at h
      have hsome : (Nat.toDigits 10 (n / 10)).head?.isSome :=
        List.isSome_head?.mpr Nat.toDigits_ne_nil
      obtain ⟨c, hc⟩ := Option.isSome_iff_exists.mp hsome
      rw [hc, Option.some_or, ← hc] at h
      have hzero := ih (n / 10) (by omega) h
      omega

/-- So a written integer is read back. -/
theorem readMagnitude_toDigits {n : Nat} (hn : n < Number.intBound)
    (negative : Bool) :
    readMagnitude negative (Nat.toDigits 10 n) =
      some ({ negative, digits := n }, []) := by
  have hdigits : ∀ c ∈ Nat.toDigits 10 n, c.isDigit = true := fun c hc =>
    Nat.isDigit_of_mem_toDigits (by decide) (by decide) hc
  have hwhole : (Nat.toDigits 10 n).takeWhile Char.isDigit =
      Nat.toDigits 10 n := List.takeWhile_eq_self_iff.mpr hdigits
  have hafter : (Nat.toDigits 10 n).dropWhile Char.isDigit = [] :=
    List.dropWhile_eq_nil_iff.mpr hdigits
  have hzero : ¬ ((Nat.toDigits 10 n).isEmpty = true ∨
      ((Nat.toDigits 10 n).head? = some '0' ∧
          1 < (Nat.toDigits 10 n).length)) := by
    rintro (hempty | ⟨hhead, hlength⟩)
    · exact Nat.toDigits_ne_nil (List.isEmpty_iff.mp hempty)
    · cases eq_zero_of_head_toDigits n hhead
      exact absurd hlength (by decide)
  have happend : Literal.appendDigits 0 (Nat.toDigits 10 n) = (n, []) := by
    have hvalue := decimalNumber_toDigits n
    rw [appendDigits_eq] <;> simp_all [Literal.decimalNumber, Nat.ofDigitChars]
  rw [readMagnitude, hwhole, hafter]
  simp only [if_neg hzero, readFraction, readScale, Option.map_some,
    Literal.ofDigits, happend]
  rfl

/-- A number is read back from its written form. -/
def Number.ReadsBack (n : Number) : Prop :=
  ∃ l, readNumber n.render.toList = some (l, []) ∧ l.toNumber? = some n

/-- Integers that can be kept are read back. -/
theorem Number.readsBack_int {i : Int} (hlow : -(negBound : Int) ≤ i)
    (hhigh : i < intBound) :
    (Number.int i).ReadsBack := by
  have hbounds : negBound < intBound := by decide
  have hsmall : i.natAbs < intBound := by omega
  rcases lt_or_ge i 0 with hi | hi
  · refine ⟨{ negative := true, digits := i.natAbs }, ?_, ?_⟩
    · simp [Number.render, hi, readNumber, readMagnitude_toDigits hsmall]
    · have hpos : 0 < i.natAbs := by omega
      have hbound : i.natAbs ≤ negBound := by omega
      have hvalue : -|i| = i := by rw [abs_of_neg hi, neg_neg]
      simp [Literal.toNumber?, hpos, hbound, hvalue]
  · refine ⟨{ negative := false, digits := i.natAbs }, ?_, ?_⟩
    · have hminus : ∀ r, Nat.toDigits 10 i.natAbs = '-' :: r → False := by
        intro r hr
        have hdigit : '-'.isDigit = true :=
          Nat.isDigit_of_mem_toDigits (b := 10) (by decide) (by decide)
            (hr ▸ List.mem_cons_self)
        exact absurd hdigit (by decide)
      have hrender : (Number.int i).render.toList =
          Nat.toDigits 10 i.natAbs := by
        simp [Number.render, not_lt.mpr hi]
      rw [hrender, readNumber]
      · exact readMagnitude_toDigits hsmall false
      · exact hminus
    · have hvalue : (i.natAbs : Int) = i := by omega
      simp [Literal.toNumber?, hvalue]

/-! ## Texts -/

theorem hexValue?_hexDigit (n : Nat) :
    hexValue? (hexDigit n) = some (n % 16) := by
  have hall : ∀ k < 16, hexValue? ((Nat.toDigits 16 k).headD '0') =
      some k := by decide
  exact hall (n % 16) (Nat.mod_lt _ (by decide))

/-- The written form of a character is read as that character. -/
theorem readText_writeChar (c : Char) (rest : List Char) :
    readText none (writeChar c ++ rest) =
      (readText none rest).map (pushChar c) := by
  unfold writeChar
  -- The characters with an escape of their own, then the other control
  -- characters, then all the rest.
  split_ifs with h1 h2 h3 h4 h5 h6 h7 h8
  · subst h1
    rfl
  · subst h2
    rfl
  · subst h3
    rfl
  · subst h4
    rfl
  · subst h5
    rfl
  · subst h6
    rfl
  · subst h7
    rfl
  · have hhex : hexNumber? ['0', '0', hexDigit (c.toNat / 16),
        hexDigit c.toNat] = some c.toNat := by
      have hzero : hexValue? '0' = some 0 := rfl
      have hvalue : 16 * (c.toNat / 16 % 16) + c.toNat % 16 =
          c.toNat := by omega
      simp [hexNumber?, hexValue?_hexDigit, hzero, hvalue]
    have hlead : isLeading c.toNat = false := by
      simp only [isLeading, Bool.and_eq_false_iff, decide_eq_false_iff_not]
      omega
    have htrail : isTrailing c.toNat = false := by
      simp only [isTrailing, Bool.and_eq_false_iff, decide_eq_false_iff_not]
      omega
    simp [readText, hhex, hlead, htrail, Char.ofNat_toNat]
  · have hplain : ¬ (c = '\\' ∨ c.toNat < 0x20) := not_or.mpr ⟨h2, h8⟩
    rw [List.singleton_append, readText, if_neg hplain]
    · rfl
    · exact h1
    · exact fun _ _ _ _ _ hc _ => h2 hc
    · exact fun _ _ hc _ => h2 hc

/-- A written text is read back, up to its closing quote. -/
theorem readText_write (cs rest : List Char) :
    readText none (cs.flatMap writeChar ++ '"' :: rest) =
      some (some cs, rest) := by
  induction cs with
  | nil => rfl
  | cons c cs ih =>
    rw [List.flatMap_cons, List.append_assoc, readText_writeChar, ih]; rfl

end TreeLint.Json
