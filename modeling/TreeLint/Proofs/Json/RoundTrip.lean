import TreeLint.Proofs.Json.Scan
import TreeLint.Proofs.NameMap

/-!
# Values are read as they were written

The written form of a value is read as the document of that value
(`Document.read_write`), whatever the value, as long as each of its numbers
is read back; and the document stands for the value again
(`Value.value?_document`) if the names of every object in it increase and it
does not nest too deeply.

Specification, §12.
-/

namespace TreeLint.Json

/-! ## Parts of a value -/

mutual

/-- The numbers in a value. -/
def Value.numbers : Value → List Number
  | .number n => [n]
  | .array items => items.numbers
  | .object members => members.numbers
  | _ => []

def Items.numbers : Items → List Number
  | .nil => []
  | .cons v r => v.numbers ++ r.numbers

def Members.numbers : Members → List Number
  | .nil => []
  | .cons _ v r => v.numbers ++ r.numbers

end

mutual

/-- How deeply arrays and objects nest in a value. -/
def Value.depth : Value → Nat
  | .array items => items.depth + 1
  | .object members => members.depth + 1
  | _ => 0

def Items.depth : Items → Nat
  | .nil => 0
  | .cons v r => max v.depth r.depth

def Members.depth : Members → Nat
  | .nil => 0
  | .cons _ v r => max v.depth r.depth

end

mutual

/-- The names of every object in a value increase. -/
def Value.Ordered : Value → Prop
  | .array items => items.Ordered
  | .object members => NameMap.Sorted members.toList ∧ members.Ordered
  | _ => True

def Items.Ordered : Items → Prop
  | .nil => True
  | .cons v r => v.Ordered ∧ r.Ordered

/-- The names of every object inside the members increase. -/
def Members.Ordered : Members → Prop
  | .nil => True
  | .cons _ v r => v.Ordered ∧ r.Ordered

end

/-! ## Written forms -/

/-- The written form of items after another one. -/
def Items.tail : Items → List Char
  | .nil => []
  | .cons v r => ',' :: (v.write.toList ++ r.tail)

/-- A written text: a quote, the characters with their escapes, a quote. -/
theorem toList_writeText (s : String) :
    (writeText s).toList = '"' :: (s.toList.flatMap writeChar ++ ['"']) := by
  simp [writeText]

/-- The written form of a member. -/
def memberText (name : String) (v : Value) : List Char :=
  (writeText name).toList ++ ':' :: v.write.toList

/-- The written form of members after another one. -/
def Members.tail : Members → List Char
  | .nil => []
  | .cons n v r => ',' :: (memberText n v ++ r.tail)

theorem Items.toList_write :
    ∀ (v : Value) (r : Items), (Items.cons v r).write.toList =
      v.write.toList ++ r.tail
  | v, .nil => by simp [Items.write, Items.tail]
  | v, .cons w r => by simp [Items.write, Items.tail, Items.toList_write w r]

theorem Members.toList_write : ∀ (n : String) (v : Value) (r : Members),
    (Members.cons n v r).write.toList = memberText n v ++ r.tail
  | n, v, .nil => by simp [Members.write, Members.tail, memberText]
  | n, v, .cons n' w r => by
    simp [Members.write, Members.tail, memberText, Members.toList_write n' w r]

/-- Fuel for the rest: the written form behind the first item is no longer
than the whole. -/
theorem Items.length_tail_le (items : Items) :
    items.tail.length ≤ items.write.length + 1 := by
  cases items with
  | nil => exact Nat.zero_le _
  | cons v r =>
    rw [← String.length_toList, Items.toList_write, Items.tail,
      List.length_cons]

theorem Members.length_tail_le (members : Members) :
    members.tail.length ≤ members.write.length + 1 := by
  cases members with
  | nil => exact Nat.zero_le _
  | cons n v r =>
    rw [← String.length_toList, Members.toList_write, Members.tail,
      List.length_cons]

/-- What begins a number is no blank and no closing bracket. -/
theorem head_of_number {c : Char} (h : c = '-' ∨ c.isDigit = true) :
    isBlank c = false ∧ c ≠ ']' := by
  constructor
  · rw [Bool.eq_false_iff]
    intro hblank
    simp only [isBlank, Bool.or_eq_true, beq_iff_eq] at hblank
    rcases hblank with ((rfl | rfl) | rfl) | rfl <;> exact absurd h (by decide)
  · rintro rfl
    exact absurd h (by decide)

/-- No value begins with a blank or a closing bracket. -/
theorem Value.head_write {v : Value} (h : ∀ n ∈ v.numbers, n.ReadsBack) :
    ∃ c after, v.write.toList = c :: after ∧ isBlank c = false ∧ c ≠ ']' := by
  cases v with
  | null => exact ⟨_, _, rfl, rfl, by decide⟩
  | bool b => cases b <;> exact ⟨_, _, rfl, rfl, by decide⟩
  | number n =>
    obtain ⟨l, hread, -⟩ := h n (List.mem_singleton.mpr rfl)
    obtain ⟨c, after, hcs, hc⟩ := head_of_readNumber hread
    exact ⟨c, after, hcs, head_of_number hc⟩
  | text s => exact ⟨_, _, toList_writeText s, rfl, by decide⟩
  | array items =>
    exact ⟨'[', items.write.toList ++ [']'], by simp [Value.write],
      rfl, by decide⟩
  | object members =>
    exact ⟨'\x7b', members.write.toList ++ ['\x7d'], by simp [Value.write],
      rfl, by decide⟩

theorem skipBlanks_cons {c : Char} {cs : List Char} (h : isBlank c = false) :
    skipBlanks (c :: cs) = c :: cs := by
  rw [skipBlanks, List.dropWhile_cons_of_neg (by simp [h])]

/-! ## Reading -/

section Reading

variable {rest : List Char} {fuel : Nat}

/-- A number is read back as far as it goes, if a closing character follows.
-/
theorem readValue_number {n : Number} (h : n.ReadsBack) (hrest : Closes rest) :
    readValue (fuel + 1) (n.render.toList ++ rest) =
      (.number (some n), rest) := by
  obtain ⟨l, hread, hnumber⟩ := h
  obtain ⟨c, after, hcs, hc⟩ := head_of_readNumber hread
  have happend := readNumber_append hrest hread
  rw [hcs, List.cons_append] at happend ⊢
  rw [readValue, skipBlanks_cons (head_of_number hc).1]
  -- The first character of a number begins nothing else.
  split <;> simp_all

theorem readValue_text (s : String) :
    readValue (fuel + 1) ((writeText s).toList ++ rest) =
      (.text (some s), rest) := by
  rw [toList_writeText]
  simp [readValue, skipBlanks_cons, isBlank, readText_write,
    String.ofList_toList]

theorem Items.closes_tail (items : Items) (rest : List Char) :
    Closes (items.tail ++ ']' :: rest) := by
  cases items <;> simp [Items.tail, Closes]

theorem Members.closes_tail (members : Members) (rest : List Char) :
    Closes (members.tail ++ '\x7d' :: rest) := by
  cases members <;> simp [Members.tail, Closes]

theorem readValue_array (cs : List Char) :
    readValue (fuel + 1) ('[' :: cs) =
      (.array (readItems fuel true cs).1, (readItems fuel true cs).2) := by
  have hopen : isBlank '[' = false := rfl
  simp [readValue, skipBlanks_cons hopen]

theorem readValue_object (cs : List Char) :
    readValue (fuel + 1) ('\x7b' :: cs) =
      (.object (readMembers fuel true cs).1, (readMembers fuel true cs).2) := by
  have hopen : isBlank '\x7b' = false := rfl
  simp [readValue, skipBlanks_cons hopen]

theorem readItems_comma {c : Char} (hblank : isBlank c = false) (hc : c ≠ ']')
    (cs : List Char) :
    readItems (fuel + 1) false (',' :: c :: cs) =
      (.item (readValue fuel (c :: cs)).1
        (readItems fuel false (readValue fuel (c :: cs)).2).1,
        (readItems fuel false (readValue fuel (c :: cs)).2).2) := by
  have hcomma : isBlank ',' = false := rfl
  simp [readItems, skipBlanks_cons hcomma, skipBlanks_cons hblank, hc]

/-- One more member behind a comma. -/
theorem readMembers_comma (name : String) (cs : List Char) :
    readMembers (fuel + 1) false
      (',' :: ((writeText name).toList ++ ':' :: cs)) =
      (.member name (readValue fuel cs).1
        (readMembers fuel false (readValue fuel cs).2).1,
        (readMembers fuel false (readValue fuel cs).2).2) := by
  have hcomma : isBlank ',' = false := rfl
  have hquote : isBlank '"' = false := rfl
  have hcolon : isBlank ':' = false := rfl
  simp [readMembers, toList_writeText, skipBlanks_cons hcomma,
    skipBlanks_cons hquote, skipBlanks_cons hcolon,
    readText_write, String.ofList_toList]

/-- The first item is read as one after a comma is. -/
theorem readItems_first {items : Items} (h : ∀ n ∈ items.numbers, n.ReadsBack) :
    readItems fuel true (items.write.toList ++ ']' :: rest) =
      readItems fuel false (items.tail ++ ']' :: rest) := by
  cases fuel with
  | zero => rfl
  | succ fuel =>
    cases items with
    | nil => rfl
    | cons v r =>
      obtain ⟨c, after, hcs, hblank, hc⟩ := v.head_write fun n hn =>
        h n (List.mem_append_left _ hn)
      have hcomma : isBlank ',' = false := rfl
      simp [readItems, Items.tail, Items.toList_write, hcs,
        skipBlanks_cons hcomma, skipBlanks_cons hblank, hc]

/-- The first member is read as one after a comma is. -/
theorem readMembers_first (members : Members) :
    readMembers fuel true (members.write.toList ++ '\x7d' :: rest) =
      readMembers fuel false (members.tail ++ '\x7d' :: rest) := by
  cases fuel with
  | zero => rfl
  | succ fuel =>
    cases members with
    | nil => rfl
    | cons n v r =>
      have hcomma : isBlank ',' = false := rfl
      have hquote : isBlank '"' = false := rfl
      simp [readMembers, Members.tail, Members.toList_write, memberText,
        toList_writeText, skipBlanks_cons hcomma,
        skipBlanks_cons hquote]

mutual

/-- The written form of a value is read as its document. -/
theorem readValue_write (v : Value) (fuel : Nat) (rest : List Char)
    (hn : ∀ n ∈ v.numbers, n.ReadsBack) (hrest : Closes rest)
    (hfuel : 2 * v.write.length ≤ fuel + 1) :
    readValue (fuel + 1) (v.write.toList ++ rest) = (v.document, rest) := by
  cases v with
  | null => simp [readValue, Value.write, skipBlanks, isBlank, Value.document]
  | bool b =>
    cases b <;> simp [readValue, Value.write, skipBlanks, isBlank,
      Value.document]
  | number n => exact readValue_number (hn n (List.mem_singleton.mpr rfl)) hrest
  | text s => exact readValue_text s
  | array items =>
    have hwrite : (Value.array items).write.toList =
        '[' :: (items.write.toList ++ [']']) := by simp [Value.write]
    have hlength : (Value.array items).write.length =
        items.write.length + 2 := by
      rw [← String.length_toList, hwrite]
      simp [String.length_toList]
    have htail := items.length_tail_le
    rw [hwrite, List.cons_append, List.append_assoc, readValue_array,
      List.singleton_append, readItems_first hn,
      readItems_tail items fuel rest hn (by omega)]
    rfl
  | object members =>
    have hwrite : (Value.object members).write.toList =
        '\x7b' :: (members.write.toList ++ ['\x7d']) := by
      simp [Value.write]
    have hlength : (Value.object members).write.length =
        members.write.length + 2 := by
      rw [← String.length_toList, hwrite]
      simp [String.length_toList]
    have htail := members.length_tail_le
    rw [hwrite, List.cons_append, List.append_assoc, readValue_object,
      List.singleton_append, readMembers_first,
      readMembers_tail members fuel rest hn (by omega)]
    rfl

/-- Items after another one are read as they were written. -/
theorem readItems_tail (items : Items) (fuel : Nat) (rest : List Char)
    (hn : ∀ n ∈ items.numbers, n.ReadsBack)
    (hfuel : 2 * items.tail.length < fuel) :
    readItems fuel false (items.tail ++ ']' :: rest) =
      (items.document, rest) := by
  cases items with
  | nil =>
    obtain ⟨fuel, rfl⟩ := Nat.exists_eq_add_one_of_ne_zero
      (Nat.ne_zero_of_lt hfuel)
    rfl
  | cons v r =>
    have hlength : (Items.cons v r).tail.length =
        v.write.length + r.tail.length + 1 := by
      simp [Items.tail, String.length_toList]
    obtain ⟨fuel, rfl⟩ : ∃ k, fuel = k + 2 := ⟨fuel - 2, by omega⟩
    obtain ⟨c, after, hcs, hblank, hc⟩ := v.head_write fun n h =>
      hn n (List.mem_append_left _ h)
    have hvalue := readValue_write v fuel (r.tail ++ ']' :: rest) (fun n h =>
      hn n (List.mem_append_left _ h))
      (r.closes_tail rest) (by omega)
    have hitems := readItems_tail r (fuel + 1) rest (fun n h =>
      hn n (List.mem_append_right _ h)) (by omega)
    simp only [Items.tail, hcs, List.cons_append, List.append_assoc] at hvalue ⊢
    rw [readItems_comma hblank hc, hvalue, hitems]
    rfl

/-- Members after another one are read as they were written. -/
theorem readMembers_tail (members : Members) (fuel : Nat) (rest : List Char)
    (hn : ∀ n ∈ members.numbers, n.ReadsBack)
    (hfuel : 2 * members.tail.length < fuel) :
    readMembers fuel false (members.tail ++ '\x7d' :: rest) =
      (members.document, rest) := by
  cases members with
  | nil =>
    obtain ⟨fuel, rfl⟩ := Nat.exists_eq_add_one_of_ne_zero
      (Nat.ne_zero_of_lt hfuel)
    rfl
  | cons n v r =>
    have hlength : (Members.cons n v r).tail.length =
        (writeText n).length + v.write.length + r.tail.length + 2 := by
      simp [Members.tail, memberText, String.length_toList]
      omega
    obtain ⟨fuel, rfl⟩ : ∃ k, fuel = k + 2 := ⟨fuel - 2, by omega⟩
    have hvalue := readValue_write v fuel (r.tail ++ '\x7d' :: rest) (fun n h =>
      hn n (List.mem_append_left _ h))
      (r.closes_tail rest) (by omega)
    have hmembers := readMembers_tail r (fuel + 1) rest (fun n h =>
      hn n (List.mem_append_right _ h)) (by omega)
    simp only [Members.tail, memberText, List.cons_append, List.append_assoc]
    rw [readMembers_comma, hvalue, hmembers]
    rfl

end

/-- **Reading undoes writing.** The written form of a value whose numbers
are read back is read as the document of that value, and nothing is left
over. -/
theorem Document.read_write {v : Value} (h : ∀ n ∈ v.numbers, n.ReadsBack) :
    Document.read v.write = (v.document, true) := by
  have hread := readValue_write v (2 * v.write.toList.length + 1) [] h
    (by simp [Closes])
    (by rw [String.length_toList]; omega)
  rw [List.append_nil] at hread
  simp [Document.read, hread, skipBlanks]

end Reading

end TreeLint.Json
