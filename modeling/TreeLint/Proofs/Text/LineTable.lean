import TreeLint.Proofs.Text.Search
import TreeLint.Text.Position
import Mathlib.Data.List.Induction
import Mathlib.Data.String.Basic

/-!
# Lines and columns of offsets

Which characters of a text begin before an offset decides its line and
column (`Reaches`): there are as many lines as line breaks among them and
one more, and as many columns as characters after the last of these and one
more (`positionAfter`, `position_of_reaches`). At the boundary of two
characters these are the characters in front of the boundary. At an offset
inside a character that character is one of them, so the offset has the
position of the end of the character (`position_inside`).

Looking an offset up by halving, with every index and every cut checked,
gives the same position (`position?_eq_position`): the search never leaves
the table, and lines start at boundaries.

Specification, §3 and §4.3: a violation has an offset, a line and a column.
-/

namespace TreeLint.Text

/-! ## Sizes -/

theorem byteLength_append (cs ds : List Char) :
    byteLength (cs ++ ds) = byteLength cs + byteLength ds := by
  induction cs with
  | nil => simp [byteLength]
  | cons c cs ih => simp [byteLength, ih, Nat.add_assoc]

theorem byteLength_toList (s : String) :
    byteLength s.toList = s.utf8ByteSize := by
  rw [← @String.ofList_toList s, String.utf8ByteSize_ofList,
    String.toList_ofList]
  induction s.toList with
  | nil => rfl
  | cons c cs ih => simp [byteLength, ih, Nat.add_comm]

theorem utf8Size_newline : '\n'.utf8Size = 1 := by decide

/-! ## Characters before an offset -/

variable {front back whole line cs : List Char} {c : Char}
  {start target offset : Nat}

/-- The characters `front`, the first of them at `start`, begin before
`target`, and no character right behind them would. -/
def Reaches (start : Nat) (front : List Char) (target : Nat) : Prop :=
  target ≤ start + byteLength front ∧
    (front = [] ∨ start + byteLength front.dropLast < target)

namespace Reaches

theorem tail (h : Reaches start (c :: front) target) (hf : front ≠ []) :
    Reaches (start + c.utf8Size) front target := by
  obtain ⟨hle, hlt⟩ := h
  have hlt := hlt.resolve_left (List.cons_ne_nil c front)
  rw [List.dropLast_cons_of_ne_nil hf] at hlt
  simp only [byteLength] at hle hlt
  exact ⟨by omega, Or.inr (by omega)⟩

theorem head (h : Reaches start (c :: front) target) : start < target := by
  have hlt := h.2.resolve_left (List.cons_ne_nil c front)
  omega

/-- The end of some characters is reached by them. -/
theorem boundary (front : List Char) : Reaches 0 front (byteLength front) := by
  refine ⟨by omega, ?_⟩
  rcases List.eq_nil_or_concat' front with rfl | ⟨cs, c, rfl⟩
  · exact Or.inl rfl
  · have := c.utf8Size_pos
    simp only [List.dropLast_concat, byteLength_append, byteLength]
    exact Or.inr (by omega)

/-- An offset inside a character is reached by what ends with it. -/
theorem inside (hlow : byteLength front < offset)
    (hhigh : offset < byteLength front + c.utf8Size) :
    Reaches 0 (front ++ [c]) offset := by
  simp only [Reaches, byteLength_append, byteLength, List.dropLast_concat]
  exact ⟨by omega, Or.inr (by omega)⟩

/-- Further offsets need more characters. -/
theorem prefix_of_le {front' : List Char} {target' : Nat}
    (h : Reaches 0 front target) (h' : Reaches 0 front' target')
    (hle : target ≤ target') (hf : front <+: cs) (hf' : front' <+: cs) :
    front <+: front' := by
  rcases List.prefix_or_prefix_of_prefix hf hf' with hpre | ⟨more, hmore⟩
  · exact hpre
  · rcases List.eq_nil_or_concat' more with rfl | ⟨ds, d, rfl⟩
    · exact ⟨[], by rw [← hmore, List.append_nil, List.append_nil]⟩
    · -- the shorter list would end where the longer one has a character
      -- that begins before the offset
      have hlast := h.2.resolve_left (by simp [← hmore])
      have hend := h'.1
      rw [← hmore, ← List.append_assoc, List.dropLast_concat, byteLength_append]
        at hlast
      omega

end Reaches

/-- **Every offset within a text has the characters that begin before it.**
-/
theorem exists_reaches (cs : List Char) (start target : Nat)
    (h : target ≤ start + byteLength cs) :
    ∃ front back, cs = front ++ back ∧ Reaches start front target := by
  -- By induction on the text: a character that begins before the offset
  -- belongs to the stretch.
  induction cs generalizing start with
  | nil => exact ⟨[], [], rfl, h, Or.inl rfl⟩
  | cons c cs ih =>
    by_cases hle : target ≤ start
    · exact ⟨[], c :: cs, rfl, Nat.le_add_right_of_le hle, Or.inl rfl⟩
    · rw [byteLength, ← Nat.add_assoc] at h
      obtain ⟨front, back, rfl, hreach, hlast⟩ := ih _ h
      refine ⟨c :: front, back, rfl, by rwa [byteLength, ← Nat.add_assoc],
        Or.inr ?_⟩
      cases front with
      | nil => simpa [byteLength] using hle
      | cons d front =>
        have hlast := hlast.resolve_left (List.cons_ne_nil d front)
        rw [List.dropLast_cons_of_ne_nil (List.cons_ne_nil d front), byteLength]
        omega

/-! ## Line starts -/

theorem breaksFrom_append (start : Nat) (cs ds : List Char) :
    breaksFrom start (cs ++ ds) = breaksFrom start cs ++ breaksFrom
      (start + byteLength cs) ds := by
  induction cs generalizing start with
  | nil => simp [breaksFrom, byteLength]
  | cons c cs ih =>
    simp only [List.cons_append, breaksFrom, byteLength, ih, ← Nat.add_assoc]
    split <;> rfl

theorem length_breaksFrom (start : Nat) (cs : List Char) :
    (breaksFrom start cs).length = cs.count '\n' := by
  induction cs generalizing start with
  | nil => rfl
  | cons c cs ih =>
    simp only [breaksFrom, List.count_cons, beq_iff_eq]
    split <;> simp [ih]

/-- Lines after the first start behind the start of the text. -/
theorem lt_of_mem_breaksFrom {s : Nat}
    (h : s ∈ breaksFrom start cs) : start < s := by
  induction cs generalizing start with
  | nil => cases h
  | cons c cs ih =>
    have hpos := c.utf8Size_pos
    simp only [breaksFrom] at h
    split at h
    · rcases List.mem_cons.mp h with rfl | h
      · omega
      · have := ih h
        omega
    · have := ih h
      omega

/-- **Line starts are in increasing order,** as the search by halving needs
them. -/
theorem pairwise_breaksFrom (start : Nat) (cs : List Char) :
    (breaksFrom start cs).Pairwise (· < ·) := by
  induction cs generalizing start with
  | nil => exact List.Pairwise.nil
  | cons c cs ih =>
    simp only [breaksFrom]
    split
    · exact List.pairwise_cons.mpr ⟨fun _ => lt_of_mem_breaksFrom, ih _⟩
    · exact ih _

theorem breaksFrom_eq_nil (start : Nat) (h : '\n' ∉ cs) :
    breaksFrom start cs = [] := by
  rw [← List.length_eq_zero_iff, length_breaksFrom, List.count_eq_zero]
  exact h

/-- Line breaks among the characters that begin before an offset end there
at the latest. -/
theorem le_of_mem_breaksFrom {s : Nat} (hreach : Reaches start front target)
    (h : s ∈ breaksFrom start front) : s ≤ target := by
  induction front generalizing start with
  | nil => cases h
  | cons c front ih =>
    have hrest : s ∈ breaksFrom (start + c.utf8Size) front → s ≤ target := by
      intro hs
      have hf : front ≠ [] := by
        rintro rfl
        cases hs
      exact ih (hreach.tail hf) hs
    simp only [breaksFrom] at h
    split at h
    · next hc =>
      rcases List.mem_cons.mp h with rfl | h
      · rw [hc, utf8Size_newline]
        exact hreach.head
      · exact hrest h
    · exact hrest h

/-- The lines that have begun are those that begin among the characters
before the offset. -/
theorem takeWhile_starts (hreach : Reaches 0 front target) :
    (0 :: breaksFrom 0 (front ++ back)).takeWhile
      (fun s => decide (s ≤ target)) = 0 :: breaksFrom 0 front := by
  have hstop : (breaksFrom (0 + byteLength front) back).takeWhile
      (fun s => decide (s ≤ target)) = [] := by
    cases hbreaks : breaksFrom (0 + byteLength front) back with
    | nil => rfl
    | cons s ss =>
      have hmem : s ∈ breaksFrom (0 + byteLength front) back :=
        hbreaks ▸ List.mem_cons_self
      have hlt := lt_of_mem_breaksFrom hmem
      have hle := hreach.1
      simp [show ¬s ≤ target by omega]
  have hall : ∀ s ∈ breaksFrom 0 front, decide (s ≤ target) =
      true := fun s hs =>
    decide_eq_true (le_of_mem_breaksFrom hreach hs)
  rw [List.takeWhile_cons_of_pos (by simp), breaksFrom_append,
    List.takeWhile_append_of_pos hall, hstop,
    List.append_nil]

/-! ## The last line -/

/-- No characters, or characters that end with a line break. -/
def WholeLines (cs : List Char) : Prop := cs = [] ∨ ∃ ds, cs = ds ++ ['\n']

/-- Any text is whole lines followed by a part of a line. -/
theorem exists_lastLine (front : List Char) :
    ∃ whole line, front = whole ++ line ∧ WholeLines whole ∧ '\n' ∉ line := by
  induction front using List.reverseRecOn with
  | nil => exact ⟨[], [], rfl, Or.inl rfl, by simp⟩
  | append_singleton front c ih =>
    by_cases hc : c = '\n'
    · subst hc
      exact ⟨front ++ ['\n'], [], by simp, Or.inr ⟨front, rfl⟩, by simp⟩
    · obtain ⟨whole, line, rfl, hwhole, hline⟩ := ih
      exact ⟨whole, line ++ [c], by simp, hwhole, by simp [hline, Ne.symm hc]⟩

/-- The position right behind some text: its line is one more than there are
line breaks, and its column is one more than there are characters after the
last of them. -/
def positionAfter (front : List Char) : Position :=
  ⟨1 + front.count '\n', 1 + (front.reverse.takeWhile (· != '\n')).length⟩

/-- The last line starts right behind the whole lines. -/
theorem getLastD_starts (hwhole : WholeLines whole) (hline : '\n' ∉ line) :
    (0 :: breaksFrom 0 (whole ++ line)).getLastD 0 = byteLength whole := by
  rw [breaksFrom_append, breaksFrom_eq_nil _ hline, List.append_nil]
  rcases hwhole with rfl | ⟨cs, rfl⟩
  · rfl
  · have hstarts : 0 :: breaksFrom 0 (cs ++ ['\n']) = (0 :: breaksFrom 0 cs) ++
        [byteLength (cs ++ ['\n'])] := by
      simp [breaksFrom_append, breaksFrom, byteLength_append, byteLength]
    rw [hstarts, List.getLastD_concat]

/-- After whole lines and part of another one: the line breaks are counted,
then the characters. -/
theorem positionAfter_append (hwhole : WholeLines whole) (hline : '\n' ∉ line) :
    positionAfter (whole ++ line) =
      ⟨1 + whole.count '\n', 1 + line.length⟩ := by
  have hall : ∀ c ∈ line.reverse, (c != '\n') = true := by
    intro c hc
    rw [bne_iff_ne]
    rintro rfl
    exact hline (List.mem_reverse.mp hc)
  have hstop : whole.reverse.takeWhile (· != '\n') = [] := by
    rcases hwhole with rfl | ⟨cs, rfl⟩
    · rfl
    · simp
  rw [positionAfter, List.count_append, List.count_eq_zero.mpr hline,
    List.reverse_append,
    List.takeWhile_append_of_pos hall, hstop, List.append_nil,
      List.length_reverse, Nat.add_zero]

theorem dropToOffset_append (start : Nat) (cs ds : List Char) :
    dropToOffset (start + byteLength cs) start (cs ++ ds) = ds := by
  induction cs generalizing start with
  | nil => cases ds <;> simp [dropToOffset, byteLength]
  | cons c cs ih =>
    have hpos := c.utf8Size_pos
    rw [List.cons_append, dropToOffset, byteLength, if_pos (by omega),
      ← Nat.add_assoc, ih]

/-- The characters that begin before an offset are counted. -/
theorem countBefore_append (hreach : Reaches start line target)
    (back : List Char) :
    countBefore target start (line ++ back) = line.length := by
  induction line generalizing start with
  | nil =>
    have hle : target ≤ start := by simpa [byteLength] using hreach.1
    cases back <;> simp [countBefore, Nat.not_lt.mpr hle]
  | cons c line ih =>
    rw [List.cons_append, countBefore, if_pos hreach.head, List.length_cons,
      Nat.add_comm]
    cases line with
    | nil =>
      have hle : target ≤ start + c.utf8Size := by
        simpa [byteLength] using hreach.1
      cases back <;> simp [countBefore, Nat.not_lt.mpr hle]
    | cons d line => rw [ih (hreach.tail (List.cons_ne_nil d line))]

/-- The last line is reached from where it starts. -/
theorem Reaches.of_append (h : Reaches 0 (whole ++ line) target) :
    Reaches (byteLength whole) line target := by
  obtain ⟨hle, hlt⟩ := h
  rw [byteLength_append, Nat.zero_add] at hle
  refine ⟨hle, ?_⟩
  by_cases hline : line = []
  · exact Or.inl hline
  · have hlt := hlt.resolve_left (by simp [hline])
    rw [List.dropLast_append_of_ne_nil hline, byteLength_append, Nat.zero_add]
      at hlt
    exact Or.inr hlt

/-! ## Positions -/

@[simp] theorem chars_ofText (text : String) :
    (LineTable.ofText text).chars = text.toList :=
  rfl

@[simp] theorem starts_ofText (text : String) :
    (LineTable.ofText text).starts = 0 :: breaksFrom 0 text.toList :=
  rfl

/-- The lines that have begun give the position. -/
theorem position_of_passed (table : LineTable) {passed : List Nat}
    (hpassed : table.starts.takeWhile
      (fun s => decide (s ≤ min offset (byteLength table.chars))) = passed) :
    table.position offset =
      ⟨passed.length, countBefore (min offset (byteLength table.chars))
        (passed.getLastD 0)
        (dropToOffset (passed.getLastD 0) 0 table.chars) + 1⟩ := by
  subst hpassed
  rfl

/-- **The position of an offset** is that behind the characters which begin
before it. -/
theorem position_of_reaches {text : String}
    (htext : text.toList = front ++ back)
    (hreach : Reaches 0 front (min offset (byteLength text.toList))) :
    (LineTable.ofText text).position offset = positionAfter front := by
  have hpassed : (LineTable.ofText text).starts.takeWhile
      (fun s => decide (s ≤ min offset (byteLength text.toList))) =
          0 :: breaksFrom 0 front := by
    rw [starts_ofText, htext]
    exact takeWhile_starts (htext ▸ hreach)
  obtain ⟨whole, line, rfl, hwhole, hline⟩ := exists_lastLine front
  have hdrop : dropToOffset (byteLength whole) 0 text.toList =
      line ++ back := by
    have hwhole := dropToOffset_append 0 whole (line ++ back)
    rwa [Nat.zero_add, ← List.append_assoc, ← htext] at hwhole
  rw [position_of_passed _ hpassed, getLastD_starts hwhole hline,
    positionAfter_append hwhole hline, chars_ofText,
    hdrop, countBefore_append hreach.of_append, List.length_cons,
      length_breaksFrom, List.count_append,
    List.count_eq_zero.mpr hline, Nat.add_zero, Nat.add_comm,
      Nat.add_comm line.length]

/-- **The position at an offset is the one after all characters that begin
before it;** beyond the end it is that of the end. -/
theorem exists_position (text : String) (offset : Nat) :
    ∃ front back, text.toList = front ++ back ∧
      Reaches 0 front (min offset (byteLength text.toList)) ∧
      (LineTable.ofText text).position offset = positionAfter front := by
  obtain ⟨front, back, htext, hreach⟩ :=
    exists_reaches text.toList 0
      (min offset (byteLength text.toList)) (by omega)
  exact ⟨front, back, htext, hreach, position_of_reaches htext hreach⟩

/-- At an offset between two characters it is the position after the first
part. -/
theorem position_boundary {text front back : String}
    (htext : text = front ++ back) :
    (LineTable.ofText text).position front.utf8ByteSize =
      positionAfter front.toList := by
  have hlist : text.toList = front.toList ++ back.toList := by
    rw [htext, String.toList_append]
  refine position_of_reaches hlist ?_
  rw [hlist, byteLength_append, ← byteLength_toList,
    Nat.min_eq_left (Nat.le_add_right _ _)]
  exact Reaches.boundary front.toList

/-! ## Order -/

/-- One position comes before another: on an earlier line, or on the same
line in an earlier column. -/
def Position.Before (a b : Position) : Prop :=
  a.line < b.line ∨ a.line = b.line ∧ a.column < b.column

theorem Position.Before.trans {a b c : Position} (h : a.Before b)
    (h' : b.Before c) : a.Before c := by
  unfold Position.Before at *
  omega

theorem Position.le_iff {a b : Position} :
    a.le b = true ↔ a.Before b ∨ a = b := by
  cases a
  cases b
  simp only [Position.le, Position.Before, Bool.or_eq_true, Bool.and_eq_true,
    decide_eq_true_eq, beq_iff_eq,
    Position.mk.injEq]
  omega

/-- One character more leads to a new line or to the next column. -/
theorem positionAfter_concat (front : List Char) (c : Char) :
    positionAfter (front ++ [c]) =
      if c = '\n' then ⟨(positionAfter front).line + 1, 1⟩
      else ⟨(positionAfter front).line, (positionAfter front).column + 1⟩ := by
  split
  · next hc => simp [positionAfter, hc, Nat.add_assoc]
  · next hc => simp [positionAfter, hc, Nat.add_assoc]

/-- More characters lead to a later position. -/
theorem before_positionAfter_append (front : List Char) (hcs : cs ≠ []) :
    (positionAfter front).Before (positionAfter (front ++ cs)) := by
  have hone : ∀ (front : List Char) (c : Char),
      (positionAfter front).Before (positionAfter (front ++ [c])) := by
    intro front c
    rw [positionAfter_concat]
    split
    · exact Or.inl (Nat.lt_succ_self _)
    · exact Or.inr ⟨rfl, Nat.lt_succ_self _⟩
  induction cs using List.reverseRecOn with
  | nil => exact absurd rfl hcs
  | append_singleton cs c ih =>
    rw [← List.append_assoc]
    by_cases hnil : cs = []
    · rw [hnil, List.append_nil]
      exact hone front c
    · exact (ih hnil).trans (hone _ c)

theorem le_positionAfter {front' : List Char} (h : front <+: front') :
    (positionAfter front).le (positionAfter front') = true := by
  obtain ⟨cs, rfl⟩ := h
  rw [Position.le_iff]
  by_cases hcs : cs = []
  · exact Or.inr (by rw [hcs, List.append_nil])
  · exact Or.inl (before_positionAfter_append front hcs)

theorem position_mono (text : String) {offset' : Nat} (h : offset ≤ offset') :
    ((LineTable.ofText text).position offset).le
      ((LineTable.ofText text).position offset') = true := by
  obtain ⟨front, back, htext, hreach, hpos⟩ := exists_position text offset
  obtain ⟨front', back', htext', hreach', hpos'⟩ := exists_position text offset'
  rw [hpos, hpos']
  exact le_positionAfter (hreach.prefix_of_le hreach' (by omega)
    ⟨back, htext.symm⟩ ⟨back', htext'.symm⟩)

/-- An offset between two characters of a text, or at one of its ends. -/
def IsBoundary (text : String) (offset : Nat) : Prop :=
  ∃ front back, text = front ++ back ∧ front.utf8ByteSize = offset

/-- Between characters it has a later one. -/
theorem position_strictMono {text : String} {offset' : Nat}
    (hb : IsBoundary text offset) (hb' : IsBoundary text offset')
    (h : offset < offset') :
    ((LineTable.ofText text).position offset).Before
      ((LineTable.ofText text).position offset') := by
  obtain ⟨front, back, htext, rfl⟩ := hb
  obtain ⟨front', back', htext', rfl⟩ := hb'
  rw [position_boundary htext, position_boundary htext']
  rw [← byteLength_toList, ← byteLength_toList] at h
  have hf : front.toList <+: text.toList :=
    ⟨back.toList, by rw [htext, String.toList_append]⟩
  have hf' : front'.toList <+: text.toList :=
    ⟨back'.toList, by rw [htext', String.toList_append]⟩
  rcases List.prefix_or_prefix_of_prefix hf hf' with ⟨cs, hcs⟩ | ⟨cs, hcs⟩
  · rw [← hcs]
    refine before_positionAfter_append front.toList ?_
    rintro rfl
    rw [← hcs, List.append_nil] at h
    omega
  · rw [← hcs, byteLength_append] at h
    omega

/-! ## Looking up by halving -/

/-- The characters from an offset on, if it is a boundary. -/
def sliceFrom? : Nat → List Char → Option (List Char)
  | offset, [] => if offset = 0 then some [] else none
  | offset, c :: cs =>
    if offset = 0 then some (c :: cs)
    else if c.utf8Size ≤ offset then
      sliceFrom? (offset - c.utf8Size) cs else none

/-- The line and column of an offset, with the line looked up by halving.
There is no answer if an index is outside of the table, if no line starts at
or before the offset, or if the line is cut off inside a character. -/
def LineTable.position? (table : LineTable) (offset : Nat) : Option Position :=
  let target := min offset (byteLength table.chars)
  (search? table.starts target).bind fun answer =>
    answer.floor?.bind fun line =>
      table.starts[line]?.bind fun start =>
        (sliceFrom? start table.chars).map fun rest =>
          ⟨line + 1, countBefore target start rest + 1⟩

theorem sliceFrom?_append (cs ds : List Char) :
    sliceFrom? (byteLength cs) (cs ++ ds) = some ds := by
  induction cs with
  | nil => cases ds <;> rfl
  | cons c cs ih =>
    have hpos := c.utf8Size_pos
    rw [List.cons_append, sliceFrom?, byteLength, if_neg (by omega),
      if_pos (Nat.le_add_right _ _),
      Nat.add_sub_cancel_left, ih]

/-- Lines start at boundaries. -/
theorem exists_of_mem_breaksFrom {s : Nat} (h : s ∈ breaksFrom start cs) :
    ∃ front back, cs = front ++ back ∧ s = start + byteLength front := by
  induction cs generalizing start with
  | nil => cases h
  | cons c cs ih =>
    simp only [breaksFrom] at h
    have hrest : s ∈ breaksFrom (start + c.utf8Size) cs →
        ∃ front back, c :: cs = front ++ back ∧
            s = start + byteLength front := by
      intro hs
      obtain ⟨front, back, rfl, rfl⟩ := ih hs
      exact ⟨c :: front, back, rfl, by rw [byteLength, Nat.add_assoc]⟩
    split at h
    · rcases List.mem_cons.mp h with rfl | h
      · exact ⟨[c], cs, rfl, by simp [byteLength]⟩
      · exact hrest h
    · exact hrest h

/-- Every line starts between two characters, so the line can be cut off
there. -/
theorem sliceFrom?_start {text : String} {start : Nat}
    (h : start ∈ (LineTable.ofText text).starts) :
    sliceFrom? start text.toList = some (dropToOffset start 0 text.toList) := by
  obtain ⟨front, back, htext, rfl⟩ : ∃ front back, text.toList = front ++ back ∧
      start = byteLength front := by
    rcases List.mem_cons.mp h with rfl | h
    · exact ⟨[], text.toList, rfl, rfl⟩
    · simpa using exists_of_mem_breaksFrom h
  have hdrop := dropToOffset_append 0 front back
  rw [Nat.zero_add] at hdrop
  rw [htext, hdrop, sliceFrom?_append]

/-- **Nothing is ever out of range** when an offset is looked up by halving,
and the position is the same. -/
theorem position?_ofText (text : String) (offset : Nat) :
    (LineTable.ofText text).position? offset =
      some ((LineTable.ofText text).position offset) := by
  have hsorted : (LineTable.ofText text).starts.Pairwise (· < ·) :=
    List.pairwise_cons.mpr ⟨fun _ => lt_of_mem_breaksFrom,
      pairwise_breaksFrom 0 _⟩
  obtain ⟨answer, hsearch, hanswer⟩ :=
    search?_answers hsorted (min offset (byteLength text.toList))
  obtain ⟨line, hfloor, hline, hpassed⟩ :=
    hanswer.floor? hsorted (y := 0) rfl (Nat.zero_le _)
  obtain ⟨start, hstart⟩ : ∃ start, (LineTable.ofText text).starts[line]? =
      some start :=
    ⟨_, List.getElem?_eq_getElem hline⟩
  have hlast : ((LineTable.ofText text).starts.take (line + 1)).getLastD 0 =
      start := by
    rw [List.getLastD_eq_getLast?, List.getLast?_take,
      if_neg (Nat.succ_ne_zero line), Nat.add_sub_cancel, hstart]
    rfl
  have hlength : ((LineTable.ofText text).starts.take (line + 1)).length =
      line + 1 := by
    rw [List.length_take, Nat.min_eq_left hline]
  rw [position_of_passed _ hpassed, hlast, hlength]
  simp only [LineTable.position?, chars_ofText, hsearch, hfloor, hstart,
    Option.bind_some,
    sliceFrom?_start (List.mem_of_getElem? hstart), Option.map_some]

/-! ## Main statements -/

/-- **Positions are right.** At a boundary the line is one more than there
are line breaks in front of it, and the column one more than there are
characters after the last of them. Offsets past the end have the position of
the end. There is one line more than there are line breaks. A lookup by
halving is never out of range. A further boundary has a later position, and
a further offset no earlier one. Specification, §4.3. -/
theorem line_table_correct (text : String) :
    let table := LineTable.ofText text
    (∀ front back, text = front ++ back → table.position front.utf8ByteSize =
      positionAfter front.toList) ∧
    (∀ offset, text.utf8ByteSize ≤ offset →
      table.position offset = table.position text.utf8ByteSize) ∧
    table.lineCount = 1 + text.toList.count '\n' ∧
    (∀ offset, table.position? offset = some (table.position offset)) ∧
    (∀ offset offset', IsBoundary text offset → IsBoundary text offset' →
      offset < offset' →
      (table.position offset).Before (table.position offset')) ∧
    ∀ offset offset', offset ≤ offset' →
        (table.position offset).le (table.position offset') = true := by
  intro table
  refine ⟨fun _ _ => position_boundary, fun offset hend => ?_, ?_,
    position?_ofText text,
    fun _ _ => position_strictMono, fun _ _ => position_mono text⟩
  · rw [← byteLength_toList] at hend ⊢
    simp only [table, LineTable.position, chars_ofText, Nat.min_eq_right hend,
      Nat.min_self]
  · rw [LineTable.lineCount, starts_ofText, List.length_cons, length_breaksFrom,
      Nat.add_comm]

/-- A character of two bytes before a line break: its end and the start of
the next line are boundaries. -/
theorem line_table_correct_two_bytes :
    let table := LineTable.ofText "é\nb"
    table.position 2 = positionAfter ['é'] ∧ positionAfter ['é'] = ⟨1, 2⟩ ∧
      table.position 9 = table.position 4 ∧
      table.position? 3 = some ⟨2, 1⟩ ∧
        (table.position 2).Before (table.position 3) ∧
      (table.position 1).le (table.position 2) = true := by
  intro table
  obtain ⟨hboundary, hend, -, hlookup, hstrict, hmono⟩ :=
    line_table_correct "é\nb"
  have htwo : IsBoundary "é\nb" 2 := ⟨"é", "\nb", by decide, by decide⟩
  have hthree : IsBoundary "é\nb" 3 := ⟨"é\n", "b", by decide, by decide⟩
  exact ⟨hboundary "é" "\nb" (by decide), by decide, hend 9 (by decide),
    hlookup 3, hstrict 2 3 htwo hthree (by decide),
    hmono 1 2 (by decide)⟩

/-- **Inside a character** an offset has the position of the character's
end: the character counts as passed. Specification, §4.3. -/
theorem position_inside (front back : String) (c : Char) (offset : Nat)
    (hlow : front.utf8ByteSize < offset)
    (hhigh : offset < (front.push c).utf8ByteSize) :
    let table := LineTable.ofText (front.push c ++ back)
    let start := table.position front.utf8ByteSize
    table.position offset = table.position (front.push c).utf8ByteSize ∧
      table.position offset = ⟨start.line, start.column + 1⟩ ∧
          table.position offset ≠ start := by
  intro table start
  have hlist : (front.push c ++ back).toList =
      (front.toList ++ [c]) ++ back.toList := by
    rw [String.toList_append, String.toList_push]
  rw [String.utf8ByteSize_push] at hhigh
  have hwide : c ≠ '\n' := by
    rintro rfl
    rw [utf8Size_newline] at hhigh
    omega
  have hinside : table.position offset =
      positionAfter (front.toList ++ [c]) := by
    refine position_of_reaches hlist ?_
    rw [← byteLength_toList] at hlow hhigh
    have hfits : offset ≤ byteLength (front.push c ++ back).toList := by
      rw [hlist, byteLength_append, byteLength_append, byteLength]
      omega
    rw [Nat.min_eq_left hfits]
    exact Reaches.inside hlow hhigh
  have hend : table.position (front.push c).utf8ByteSize =
      positionAfter (front.toList ++ [c]) := by
    rw [← String.toList_push]
    exact @position_boundary _ (front.push c) back rfl
  have hstart : start = positionAfter front.toList := by
    have htext : front.push c ++ back =
        front ++ (String.singleton c ++ back) := by
      rw [String.push_eq_append, String.append_assoc]
    exact position_boundary htext
  have hnext : table.position offset = ⟨start.line, start.column + 1⟩ := by
    rw [hinside, positionAfter_concat, if_neg hwide, hstart]
  refine ⟨hinside.trans hend.symm, hnext, fun heq => ?_⟩
  have hcolumn := congrArg Position.column (hnext.symm.trans heq)
  exact Nat.succ_ne_self _ hcolumn

/-- The second byte of `é`, in the middle of a line. -/
theorem position_inside_second_byte :
    let table := LineTable.ofText "a\nbéc"
    3 < 4 ∧ 4 < 5 ∧ table.position 4 = table.position 5 ∧
      table.position 4 = ⟨2, 3⟩ ∧
      table.position 3 = ⟨2, 2⟩ := by
  intro table
  obtain ⟨hend, -, -⟩ := position_inside "a\nb" "c" 'é' 4
    (by decide) (by decide)
  exact ⟨by decide, by decide, hend, by decide, by decide⟩

/-- So it is not the position of the character's start, which comes before
it. -/
theorem position_inside_moves_on :
    let table := LineTable.ofText "é"
    0 < 1 ∧ 1 < "é".utf8ByteSize ∧ table.position 1 ≠ table.position 0 := by
  decide

end TreeLint.Text
