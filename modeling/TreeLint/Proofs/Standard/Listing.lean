import TreeLint.Proofs.Tree.Focus
import TreeLint.Standard.ParameterSpacing

/-!
# Parameter lists on one line

A parameter list as it may be written: parameters with a name, a colon and a
type, commas between them, parentheses around them, and white space or none
in each gap (`Listing`). A listing is tidy if it has white space only behind
colons and commas, and a single space there. The text of a tidy listing is
its canonical text (`Listing.text_trees`).

Specification, §13: the spacing of parameter lists.
-/

namespace TreeLint.Standard.ParameterSpacing

/-! ## Gaps

Between two tokens there may be white space or none. What follows it is a
parameter, so that trees are put together from the right. -/

/-- A place where white space may stand. -/
abbrev Gap := Option (NodeId × String)

namespace Gap

/-- The white space, if there is some, and other trees behind it. -/
def before : Gap → Forest → Forest
  | none, rest => rest
  | some (i, x), rest => .token i .whitespace x rest

def IsInline (gap : Gap) : Prop :=
  ∀ i x, gap = some (i, x) → Tree.hasBreak x = false

def IsSingle (gap : Gap) : Prop := ∃ i, gap = some (i, " ")

variable {gap : Gap} {rest : Forest}

theorem isSingle_some {i : NodeId} {x : String} :
    IsSingle (some (i, x)) ↔ x = " " := by
  simp [IsSingle]

theorem not_isSingle_none : ¬ IsSingle none := by
  simp [IsSingle]

@[simp] theorem before_none (rest : Forest) : before none rest = rest := rfl

theorem append_before (gap : Gap) (f g : Forest) :
    (gap.before f).append g = gap.before (f.append g) := by
  cases gap <;> rfl

theorem text_before (h : gap.IsSingle) (rest : Forest) :
    (gap.before rest).text = " " ++ rest.text := by
  obtain ⟨i, rfl⟩ := h
  rfl

/-- White space is passed over by whoever looks for something else. -/
theorem find?_before (test : Kind → Bool) (htest : test .whitespace = false)
    (gap : Gap) (rest : Forest) :
    ((gap.before rest).rootKinds.find? fun e => test e.2) = rest.rootKinds.find?
      fun e => test e.2 := by
  cases gap with
  | none => rfl
  | some e => simp [before, Forest.rootKinds, htest]

theorem filter_before (test : Kind → Bool) (htest : test .whitespace = false)
    (gap : Gap) (rest : Forest) :
    ((gap.before rest).rootKinds.filter fun e => test e.2) =
      rest.rootKinds.filter fun e => test e.2 := by
  cases gap with
  | none => rfl
  | some e => simp [before, Forest.rootKinds, htest]

end Gap

/-! ## Lists -/

/-- A parameter `name: type`. -/
structure Parameter where
  id : NodeId
  name : NodeId
  nameText : String
  beforeColon : Gap
  colon : NodeId
  afterColon : Gap
  type : NodeId
  typeName : NodeId
  typeText : String

/-- One more parameter, with the comma before it. -/
structure Entry where
  beforeComma : Gap
  comma : NodeId
  afterComma : Gap
  parameter : Parameter

/-- All parameters of a list: the first one and those behind it, if there
are any. -/
inductive Parameters where
  | none
  | some (first : Parameter) (others : List Entry)

/-- A parameter list on one line. -/
structure Listing where
  opening : NodeId
  afterOpening : Gap
  parameters : Parameters
  beforeClosing : Gap
  closing : NodeId

namespace Parameter

/-- What stands behind the name. -/
def fromColon (p : Parameter) : Forest :=
  .token p.colon .colon ":" (p.afterColon.before
    (.node p.type .typeReference
      (.token p.typeName .identifier p.typeText .nil) .nil))

/-- What stands below a parameter. -/
def trees (p : Parameter) : Forest :=
  .token p.name .identifier p.nameText (p.beforeColon.before p.fromColon)

/-- The parameter, and other trees behind it. -/
def before (p : Parameter) (rest : Forest) : Forest :=
  .node p.id .parameter p.trees rest

def gaps (p : Parameter) : List Gap := [p.beforeColon, p.afterColon]

def canonical (p : Parameter) : String := p.nameText ++ ": " ++ p.typeText

/-- No white space before the colon, and a single space behind it. -/
structure IsTidy (p : Parameter) : Prop where
  beforeColon : p.beforeColon = none
  afterColon : p.afterColon.IsSingle

theorem text_trees {p : Parameter} (h : p.IsTidy) :
    p.trees.text = p.canonical := by
  have hcolon : ":" ++ " " = ": " := rfl
  simp only [trees, fromColon, canonical, h.beforeColon, Gap.before_none,
    Forest.text, Gap.text_before h.afterColon,
    String.append_empty]
  rw [← hcolon, String.append_assoc, String.append_assoc]

end Parameter

namespace Entry

/-- The comma and the parameter, and other trees behind them. -/
def before (e : Entry) (rest : Forest) : Forest :=
  e.beforeComma.before (.token e.comma .comma ","
    (e.afterComma.before (e.parameter.before rest)))

def gaps (e : Entry) : List Gap :=
  e.beforeComma :: e.afterComma :: e.parameter.gaps

/-- No white space before the comma, and a single space behind it. -/
structure IsTidy (e : Entry) : Prop where
  beforeComma : e.beforeComma = none
  afterComma : e.afterComma.IsSingle
  parameter : e.parameter.IsTidy

/-- Further parameters, and other trees behind them. -/
def allBefore (es : List Entry) (rest : Forest) : Forest :=
  es.foldr Entry.before rest

theorem append_before (e : Entry) (f g : Forest) :
    (e.before f).append g = e.before (f.append g) := by
  simp [before, Gap.append_before, Forest.append, Parameter.before]

theorem append_allBefore (es : List Entry) (f g : Forest) :
    (allBefore es f).append g = allBefore es (f.append g) := by
  induction es with
  | nil => rfl
  | cons e es ih => exact (append_before e _ g).trans (congrArg e.before ih)

/-- **The text of tidy parameters has a comma and a space between each two
of them.** -/
theorem text_allBefore {es : List Entry} (h : ∀ e ∈ es, e.IsTidy)
    (first : String) (rest : Forest) :
    first ++ (allBefore es rest).text =
      ", ".intercalate (first :: es.map fun e => e.parameter.canonical) ++
        rest.text := by
  -- By induction on the further parameters, for any first text: each comma
  -- belongs to the parameter behind it.
  induction es generalizing first with
  | nil => simp [allBefore]
  | cons e es ih =>
    have he := h e List.mem_cons_self
    have hrest := ih (fun e' he' => h e' (List.mem_cons_of_mem _ he'))
      e.parameter.canonical
    have hcomma : "," ++ " " = ", " := rfl
    have htext : (allBefore (e :: es) rest).text =
        ", " ++ (e.parameter.canonical ++ (allBefore es rest).text) := by
      simp only [allBefore, List.foldr_cons, before, he.beforeComma,
        Gap.before_none, Forest.text,
        Gap.text_before he.afterComma, Parameter.before,
          Parameter.text_trees he.parameter]
      rw [← String.append_assoc, hcomma]
    rw [htext, hrest, List.map_cons, String.intercalate_cons_cons]
    simp [String.append_assoc]

end Entry

namespace Parameters

def all : Parameters → List Parameter
  | .none => []
  | .some p es => p :: es.map Entry.parameter

/-- The parameters with the commas between them, and other trees behind them. -/
def before : Parameters → Forest → Forest
  | .none, rest => rest
  | .some p es, rest => p.before (Entry.allBefore es rest)

def gaps : Parameters → List Gap
  | .none => []
  | .some p es => p.gaps ++ es.flatMap Entry.gaps

def IsTidy : Parameters → Prop
  | .none => True
  | .some p es => p.IsTidy ∧ ∀ e ∈ es, e.IsTidy

def canonical (ps : Parameters) : String :=
  ", ".intercalate (ps.all.map Parameter.canonical)

theorem append_before (ps : Parameters) (f g : Forest) :
    (ps.before f).append g = ps.before (f.append g) := by
  cases ps with
  | none => rfl
  | some p es => exact congrArg p.before (Entry.append_allBefore es f g)

/-- The text of tidy parameters, with what follows them. -/
theorem text_before {ps : Parameters} (h : ps.IsTidy) (rest : Forest) :
    (ps.before rest).text = ps.canonical ++ rest.text := by
  cases ps with
  | none => simp [before, canonical, all]
  | some p es =>
    have htext := Entry.text_allBefore h.2 p.canonical rest
    simp only [before, Parameter.before, Forest.text, Parameter.text_trees h.1,
      htext, canonical, all, List.map_cons,
      List.map_map]
    rfl

end Parameters

namespace Listing

/-- The closing parenthesis and the white space before it. -/
def ending (l : Listing) : Forest :=
  l.beforeClosing.before (.token l.closing .rightParen ")" .nil)

/-- What stands below a parameter list. -/
def trees (l : Listing) : Forest :=
  .token l.opening .leftParen "("
    (l.afterOpening.before (l.parameters.before l.ending))

def gaps (l : Listing) : List Gap :=
  l.afterOpening :: l.beforeClosing :: l.parameters.gaps

/-- No white space has a line break. -/
def IsInline (l : Listing) : Prop := ∀ gap ∈ l.gaps, gap.IsInline

/-- No white space next to the parentheses, and tidy parameters. -/
structure IsTidy (l : Listing) : Prop where
  afterOpening : l.afterOpening = none
  beforeClosing : l.beforeClosing = none
  parameters : l.parameters.IsTidy

/-- The list as it should be written. -/
def canonical (l : Listing) : String := "(" ++ l.parameters.canonical ++ ")"

/-- **The text of a tidy listing.** -/
theorem text_trees {l : Listing} (h : l.IsTidy) :
    l.trees.text = l.canonical := by
  have hending : l.ending.text = ")" := by
    simp [ending, h.beforeClosing, Forest.text]
  simp only [trees, canonical, h.afterOpening, Gap.before_none, Forest.text,
    Parameters.text_before h.parameters,
    hending, String.append_assoc]

end Listing

/-! ## Tidy lists are on one line

A tidy gap has no line break, and from gaps this goes up to parameters,
entries and the whole list. -/

theorem Gap.IsSingle.isInline {gap : Gap}
    (h : gap.IsSingle) : gap.IsInline := by
  obtain ⟨j, rfl⟩ := h
  intro i x hx
  cases hx
  rfl

theorem Gap.isInline_none : Gap.IsInline none := by
  simp [Gap.IsInline]

theorem Parameter.IsTidy.isInline {p : Parameter} (h : p.IsTidy) :
    ∀ gap ∈ p.gaps, Gap.IsInline gap := by
  intro gap hgap
  simp only [Parameter.gaps, List.mem_cons, List.not_mem_nil, or_false] at hgap
  rcases hgap with rfl | rfl
  · exact h.beforeColon ▸ Gap.isInline_none
  · exact h.afterColon.isInline

theorem Entry.IsTidy.isInline {e : Entry} (h : e.IsTidy) :
    ∀ gap ∈ e.gaps, Gap.IsInline gap := by
  intro gap hgap
  simp only [Entry.gaps, List.mem_cons] at hgap
  rcases hgap with rfl | rfl | hgap
  · exact h.beforeComma ▸ Gap.isInline_none
  · exact h.afterComma.isInline
  · exact h.parameter.isInline gap hgap

theorem Parameters.IsTidy.isInline {ps : Parameters} (h : ps.IsTidy) :
    ∀ gap ∈ ps.gaps, Gap.IsInline gap := by
  intro gap hgap
  cases ps with
  | none => cases hgap
  | some p es =>
    rcases List.mem_append.mp hgap with hgap | hgap
    · exact h.1.isInline gap hgap
    · obtain ⟨e, he, hgap⟩ := List.mem_flatMap.mp hgap
      exact (h.2 e he).isInline gap hgap

theorem Listing.IsTidy.isInline {l : Listing} (h : l.IsTidy) : l.IsInline := by
  intro gap hgap
  simp only [Listing.gaps, List.mem_cons] at hgap
  rcases hgap with rfl | rfl | hgap
  · exact h.afterOpening ▸ Gap.isInline_none
  · exact h.beforeClosing ▸ Gap.isInline_none
  · exact h.parameters.isInline gap hgap

/-! ## Kinds

Which kinds of nodes there are in a list, put together from the right like
the trees. None of them is a list, so a file with one list has no other
inside it. -/

/-- The kinds of everything in a listing. -/
def Listing.kinds : List Kind :=
  [.leftParen, .rightParen, .parameter, .comma, .colon, .identifier,
    .typeReference, .whitespace]

theorem kinds_gap {gap : Gap} {rest : Forest}
    (h : ∀ e ∈ rest.labels, e.2.1 ∈ Listing.kinds) :
    ∀ e ∈ (gap.before rest).labels, e.2.1 ∈ Listing.kinds := by
  cases gap with
  | none => exact h
  | some z => exact List.forall_mem_cons.mpr ⟨by simp [Listing.kinds], h⟩

theorem kinds_parameter {p : Parameter} {rest : Forest}
    (h : ∀ e ∈ rest.labels, e.2.1 ∈ Listing.kinds) :
    ∀ e ∈ (p.before rest).labels, e.2.1 ∈ Listing.kinds := by
  have htype : ∀ e ∈ (Forest.node p.type .typeReference
      (.token p.typeName .identifier p.typeText .nil) .nil).labels,
      e.2.1 ∈ Listing.kinds := by
    simp [Forest.labels, Listing.kinds]
  have hcolon : ∀ e ∈ p.fromColon.labels, e.2.1 ∈ Listing.kinds :=
    List.forall_mem_cons.mpr ⟨by simp [Listing.kinds], kinds_gap htype⟩
  have htrees : ∀ e ∈ p.trees.labels, e.2.1 ∈ Listing.kinds :=
    List.forall_mem_cons.mpr ⟨by simp [Listing.kinds], kinds_gap hcolon⟩
  refine List.forall_mem_cons.mpr ⟨by simp [Listing.kinds], fun e he => ?_⟩
  rcases List.mem_append.mp he with he | he
  · exact htrees e he
  · exact h e he

theorem kinds_entries {es : List Entry} {rest : Forest}
    (h : ∀ e ∈ rest.labels, e.2.1 ∈ Listing.kinds) :
    ∀ e ∈ (Entry.allBefore es rest).labels, e.2.1 ∈ Listing.kinds := by
  induction es with
  | nil => exact h
  | cons e es ih =>
    exact kinds_gap (List.forall_mem_cons.mpr ⟨by simp [Listing.kinds],
      kinds_gap (kinds_parameter ih)⟩)

/-- **The kinds that occur in a list.** -/
theorem kinds_listing (l : Listing) :
    ∀ e ∈ l.trees.labels, e.2.1 ∈ Listing.kinds := by
  have hending : ∀ e ∈ l.ending.labels, e.2.1 ∈ Listing.kinds :=
    kinds_gap (by simp [Forest.labels, Listing.kinds])
  refine List.forall_mem_cons.mpr ⟨by simp [Listing.kinds], kinds_gap ?_⟩
  cases l.parameters with
  | none => exact hending
  | some p es => exact kinds_parameter (kinds_entries hending)

/-- Each further parameter adds one to the number of parameters. -/
theorem filter_entries (es : List Entry) (rest : Forest) :
    ((Entry.allBefore es rest).rootKinds.filter (·.2 == .parameter)).length =
      es.length + (rest.rootKinds.filter (·.2 == .parameter)).length := by
  induction es with
  | nil => simp [Entry.allBefore]
  | cons e es ih =>
    have hcomma : ((Entry.allBefore (e :: es) rest).rootKinds.filter
        (·.2 == .parameter)) =
        (e.parameter.id, .parameter) ::
            (Entry.allBefore es rest).rootKinds.filter (·.2 == .parameter) := by
      simp only [Entry.allBefore, List.foldr_cons, Entry.before]
      rw [Gap.filter_before (· == .parameter) rfl, Forest.rootKinds]
      simp only [List.filter_cons]
      rw [if_neg (by decide), Gap.filter_before (· == .parameter) rfl]
      rfl
    rw [hcomma, List.length_cons, ih, List.length_cons]
    omega

/-- The parameters are the children of their kind. -/
theorem filter_listing (l : Listing) :
    (l.trees.rootKinds.filter (·.2 == .parameter)).length =
      l.parameters.all.length := by
  have hending : l.ending.rootKinds.filter (·.2 == .parameter) = [] := by
    rw [Listing.ending, Gap.filter_before (· == .parameter) rfl]
    rfl
  have htrees : l.trees.rootKinds.filter (·.2 == .parameter) =
      (l.parameters.before l.ending).rootKinds.filter (·.2 == .parameter) :=
    Gap.filter_before (· == .parameter) rfl l.afterOpening _
  rw [htrees]
  cases l.parameters with
  | none => simp [Parameters.before, Parameters.all, hending]
  | some p es =>
    have hfirst : ((Parameters.some p es).before l.ending).rootKinds.filter
        (·.2 == .parameter) =
        (p.id, .parameter) :: (Entry.allBefore es l.ending).rootKinds.filter
          (·.2 == .parameter) := rfl
    rw [hfirst, List.length_cons, filter_entries, hending]
    simp [Parameters.all]

end TreeLint.Standard.ParameterSpacing
