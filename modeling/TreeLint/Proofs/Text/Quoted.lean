import TreeLint.Text.Quoted
import Mathlib.Data.List.TakeWhile

/-!
# Reading quoted text back

The written forms of characters are a prefix code: `readChar?` takes one of
them off the front of anything and says which character it stands for
(`readChar?_escapeChar`). No written form begins with a bare quote, so the
closing quote shows where a quoted text ends, whatever stands behind it
(`quoted_append_inj`).

Specification, §15.
-/

namespace TreeLint.Text

/-! ## Hexadecimal digits -/

/-- The value of a hexadecimal digit. -/
def hexDigit (c : Char) : Nat :=
  if c.isDigit then c.toNat - '0'.toNat else c.toNat - 'a'.toNat + 10

/-- The number that hexadecimal digits spell. -/
def hexNumber (cs : List Char) : Nat :=
  cs.foldl (fun n c => 16 * n + hexDigit c) 0

theorem hexDigit_digitChar : ∀ k < 16, hexDigit (Nat.digitChar k) = k :=
  by decide

/-- A number in hexadecimal digits, read back. -/
theorem hexNumber_hexDigits (n : Nat) : hexNumber (hexDigits n) = n := by
  induction n using Nat.strongRecOn with
  | ind n ih =>
    rw [hexDigits]
    by_cases hn : n < 16
    · rw [Nat.toDigits_of_lt_base hn]
      simp [hexNumber, hexDigit_digitChar n hn]
    · have hfront := ih (n / 16) (by omega)
      rw [hexNumber, hexDigits] at hfront
      rw [Nat.toDigits_of_base_le (by decide) (by omega), hexNumber,
        List.foldl_append, hfront]
      simp only [List.foldl_cons, List.foldl_nil,
        hexDigit_digitChar (n % 16) (Nat.mod_lt n (by decide))]
      omega

/-- The closing brace is no digit. -/
theorem ne_brace_of_mem_hexDigits (n : Nat) :
    ∀ c ∈ hexDigits n, (c != '\x7d') = true := by
  have hdigit : ∀ k < 16, (Nat.digitChar k != '\x7d') = true := by decide
  induction n using Nat.strongRecOn with
  | ind n ih =>
    intro c hc
    rw [hexDigits] at hc
    by_cases hn : n < 16
    · rw [Nat.toDigits_of_lt_base hn, List.mem_singleton] at hc
      exact hc ▸ hdigit n hn
    · rw [Nat.toDigits_of_base_le (by decide) (by omega), List.mem_append,
        List.mem_singleton] at hc
      rcases hc with hc | rfl
      · exact ih (n / 16) (by omega) c hc
      · exact hdigit _ (Nat.mod_lt n (by decide))

/-! ## One character -/

/-- The character that a letter behind a backslash stands for. -/
def shortEscape (c : Char) : Char :=
  if c = 'n' then '\n' else if c = 'r' then '\r' else if c = 't' then '\t'
  else if c = '0' then Char.ofNat 0 else c

/-- Take the written form of one character off the front. -/
def readChar? : List Char → Option (Char × List Char)
  | [] => none
  | '\\' :: 'u' :: '\x7b' :: r =>
    some (Char.ofNat (hexNumber (r.takeWhile (· != '\x7d'))),
      (r.dropWhile (· != '\x7d')).drop 1)
  | '\\' :: c :: r => some (shortEscape c, r)
  | c :: r => some (c, r)

theorem readChar?_number (c : Char) (rest : List Char) :
    readChar? ('\\' :: 'u' :: '\x7b' :: (hexDigits c.toNat ++ '\x7d' :: rest)) =
      some (c, rest) := by
  have hdigits := ne_brace_of_mem_hexDigits c.toNat
  rw [readChar?, List.takeWhile_append_of_pos hdigits,
    List.dropWhile_append_of_pos hdigits]
  simp [hexNumber_hexDigits, Char.ofNat_toNat]

/-- **Every character is read back from its written form,** whatever
follows. -/
theorem readChar?_escapeChar (c : Char) (rest : List Char) :
    readChar? (escapeChar c ++ rest) = some (c, rest) := by
  unfold escapeChar
  split_ifs with hquote hslash hbreak hreturn htab hnul hnumber
  · subst hquote; rfl
  · subst hslash; rfl
  · subst hbreak; rfl
  · subst hreturn; rfl
  · subst htab; rfl
  · subst hnul; rfl
  · simpa using readChar?_number c rest
  · rw [List.singleton_append, readChar?.eq_def]
    split <;> simp_all

/-- A quote is never written bare. -/
theorem head?_escapeChar (c : Char) (rest : List Char) :
    (escapeChar c ++ rest).head? ≠ some '"' := by
  unfold escapeChar
  split_ifs with hquote <;> simp [hquote]

/-! ## Quoted text -/

/-- Escaped text ends at the first bare quote. -/
theorem escaped_append_inj {cs ds x y : List Char}
    (h : cs.flatMap escapeChar ++ '"' :: x =
      ds.flatMap escapeChar ++ '"' :: y) : cs = ds ∧ x = y := by
  induction cs generalizing ds with
  | nil =>
    cases ds with
    | nil => simpa using h
    | cons d ds =>
      rw [List.flatMap_cons, List.append_assoc] at h
      exact absurd (congrArg List.head? h).symm (head?_escapeChar d _)
  | cons c cs ih =>
    cases ds with
    | nil =>
      rw [List.flatMap_cons, List.append_assoc] at h
      exact absurd (congrArg List.head? h) (head?_escapeChar c _)
    | cons d ds =>
      simp only [List.flatMap_cons, List.append_assoc] at h
      have hread := congrArg readChar? h
      simp only [readChar?_escapeChar, Option.some.injEq, Prod.mk.injEq]
        at hread
      obtain ⟨rfl, hrest⟩ := hread
      obtain ⟨rfl, hxy⟩ := ih hrest
      exact ⟨rfl, hxy⟩

/-- A quoted text shows where it ends and which text it is. -/
theorem quoted_append_inj {s s' : String} {x y : List Char}
    (h : (quoted s).toList ++ x = (quoted s').toList ++ y) :
    s = s' ∧ x = y := by
  have hchars : s.toList.flatMap escapeChar ++ '"' :: x =
      s'.toList.flatMap escapeChar ++ '"' :: y := by
    simpa [quoted] using h
  obtain ⟨hs, hxy⟩ := escaped_append_inj hchars
  exact ⟨String.toList_inj.mp hs, hxy⟩

end TreeLint.Text
