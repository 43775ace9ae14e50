import TreeLint.Proofs.Json.Reordering
import TreeLint.Settings.Load

/-!
# Settings are read as they were written

Settings are written by one set of rules and read by another. This module
says exactly where the two agree: the written form of settings is accepted,
and gives the settings back, if and only if they have an indentation,
mention only rules with valid identities, and limit lines, if at all, to a
positive length that fits a signed word (`load_print_iff`). Options that
are null are read as no options; nothing else is lost.

How values become text and text becomes values is left open: any printer
and any reader will do, as long as the one undoes the other. So is the
order in which members are listed.

Specification, §12.
-/

namespace TreeLint

open Json (Value Members Items Number)

/-! ## Settings that can be made -/

/-- A free-form value as the library keeps it: the names of every object
increase, and every integer can be kept. -/
def Json.Value.Proper (v : Value) : Prop :=
  v.Ordered ∧ ∀ i, .int i ∈ v.numbers → -(Number.negBound : Int) ≤ i ∧
    i < Number.intBound

namespace Settings

/-- Settings made from the default ones step by step. Sizes are words, and
free-form values are proper. -/
inductive Built : Settings → Prop where
  | default : Built {}
  | withCodeStyle {s : Settings} (h : Built s) (style : CodeStyle) :
    Built { s with codeStyle := style }
  | withIndent {s : Settings} (h : Built s) (style : IndentStyle) {size : Nat}
      (hsize : size < Number.intBound) :
      Built { s with indentStyle := style, indentSize := size }
  | withMaxLineLength {s : Settings} (h : Built s) {limit : Option Nat}
      (hlimit : ∀ n ∈ limit, n < Number.intBound) :
      Built { s with maxLineLength := limit }
  | withExperimental {s : Settings} (h : Built s) (experimental : Bool) :
    Built { s with experimental }
  | withRule {s : Settings} (h : Built s) (rule : String)
      {setting : RuleSetting} (hoptions : ∀ v ∈ setting.options, v.Proper) :
      Built (s.withRule rule setting)
  | withProperty {s : Settings} (h : Built s) (key : String) {value : Value}
      (hvalue : value.Proper) : Built (s.withProperty key value)

/-- What holds of settings however they were made. -/
structure Sound (s : Settings) : Prop where
  indentSize : s.indentSize < Number.intBound
  maxLineLength : ∀ n ∈ s.maxLineLength, n < Number.intBound
  rules : NameMap.Sorted s.rules
  options : ∀ e ∈ s.rules, ∀ v ∈ e.2.options, v.Proper
  properties : NameMap.Sorted s.properties
  values : ∀ e ∈ s.properties, e.2.Proper

/-- **Settings that can be made are sound:** names in order, each once, and
values that can be written. -/
theorem Built.sound {s : Settings} (h : s.Built) : s.Sound := by
  -- One case for each way to change settings.
  induction h with
  | default => exact ⟨by decide, by simp, .nil, by simp, .nil, by simp⟩
  | withCodeStyle _ _ ih => exact { ih with }
  | withIndent _ _ hsize ih => exact { ih with indentSize := hsize }
  | withMaxLineLength _ hlimit ih => exact { ih with maxLineLength := hlimit }
  | withExperimental _ _ ih => exact { ih with }
  | withRule _ rule hoptions ih =>
    refine { ih with rules := ih.rules.insert _ _, options := fun e he => ?_ }
    rcases NameMap.mem_insert he with rfl | he
    · exact hoptions
    · exact ih.options e he
  | withProperty _ key hvalue ih =>
    refine { ih with
      properties := ih.properties.insert _ _, values := fun e he => ?_ }
    rcases NameMap.mem_insert he with rfl | he
    · exact hvalue
    · exact ih.values e he

end Settings

/-- Options that are null count as none. -/
def RuleSetting.withoutNull : RuleSetting → RuleSetting
  | .detailed severity (some .null) => .detailed severity none
  | r => r

/-- Settings in which no rule has null for its options. -/
def Settings.withoutNulls (s : Settings) : Settings :=
  { s with rules := s.rules.map fun e => (e.1, e.2.withoutNull) }

/-! ## Rules -/

namespace RuleSetting

/-- The written form of a rule with options, with its members in order. -/
theorem toValue_some (severity : Severity) (v : Value) :
    (RuleSetting.detailed severity (some v)).toValue =
      .object (.cons "options" v
        (.cons "severity" (.text severity.name) .nil)) := by
  simp +decide only [toValue, Members.ofList, Members.insert,
    List.foldl_cons, List.foldl_nil, ↓reduceIte]

theorem exists_of_mem_numbers {r : RuleSetting} {n : Number}
    (hn : n ∈ r.toValue.numbers) : ∃ v ∈ r.options, n ∈ v.numbers := by
  match r with
  | .plain _ => cases hn
  | .detailed _ none => cases hn
  | .detailed severity (some v) =>
    rw [toValue_some] at hn
    exact ⟨v, rfl, by simpa [Value.numbers, Members.numbers] using hn⟩

theorem depth_options {r : RuleSetting} {v : Value} (hv : v ∈ r.options) :
    v.depth + 1 ≤ r.toValue.depth := by
  match r with
  | .plain _ => cases hv
  | .detailed _ none => cases hv
  | .detailed severity (some w) =>
    cases hv
    rw [toValue_some]
    simp [Value.depth, Members.depth]

end RuleSetting

/-! ## Reading the parts -/

namespace SettingsReader

variable {α β : Type} {w : Value}

theorem value_of_reorders {v : Value} {depth : Nat} (hw : w.Reorders v)
    (ho : v.Ordered) (hd : depth + v.depth ≤ Json.maxDepth) :
    value depth w.document = .ok v := by
  rw [value, w.value?_of_reorders v depth hw ho hd]

/-- A map is read entry by entry if each of its entries can be read. -/
theorem entries_of_lists {read : Json.Document → Read β}
    {write : α → Value} {f : α → β} (pairs : NameMap α)
    (sofar : NameMap β) (ms : Members)
    (hms : ms.Lists (pairs.map fun e => (e.1, write e.2)))
    (hread : ∀ e ∈ pairs, ∀ w : Value, w.Reorders (write e.2) →
      read w.document = .ok (f e.2)) :
    entries read sofar ms.document =
      .ok ((pairs.map fun e => (e.1, f e.2)).foldl
        (fun map e => NameMap.insert e.1 e.2 map) sofar) := by
  induction pairs generalizing sofar ms with
  | nil =>
    rw [hms.eq_nil]
    rfl
  | cons e pairs ih =>
    obtain ⟨w, r, rfl, hw, hr⟩ := hms.exists_cons
    obtain ⟨hfirst, hrest⟩ := List.forall_mem_cons.mp hread
    simp only [Members.document, entries, hfirst w hw, List.map_cons,
      List.foldl_cons, ih (NameMap.insert e.1 (f e.2) sofar) r hr hrest]

/-- A map is read back from any listing of its entries. -/
theorem nameMap_of_reorders {read : Nat → Json.Document → Read β}
    {write : α → Value} {f : α → β} {map : NameMap α} (hmap : map.Sorted)
    (hw : w.Reorders
      (.object (.ofList (map.map fun e => (e.1, write e.2)))))
    (hread : ∀ e ∈ map, ∀ w : Value, w.Reorders (write e.2) →
      read 2 w.document = .ok (f e.2)) :
    nameMap read 1 w.document = .ok (map.map fun e => (e.1, f e.2)) := by
  obtain ⟨ms, listed, rfl, hperm, hlists⟩ := hw.exists_lists
  rw [Members.toList_ofList, (hmap.mapValues write).ofList_eq] at hperm
  obtain ⟨pairs, hpairs, rfl⟩ := NameMap.exists_perm_of_map hperm
  have hentries := entries_of_lists pairs [] ms hlists
    fun e he => hread e (hpairs.mem_iff.mp he)
  rw [Value.document, nameMap, enter, if_pos (by decide), hentries]
  exact congrArg Except.ok
    ((hmap.mapValues f).ofList_of_perm (hpairs.map fun e => (e.1, f e.2)))

/-- A choice is read from its name. -/
theorem choice_name {all : List α} {name : α → String} {a : α}
    (ha : a ∈ all) (hname : ∀ b ∈ all, name b = name a → b = a)
    (depth : Nat) :
    choice all name depth (.text (some (name a))) = .ok a := by
  have hfound : all.find? (fun b => name b == name a) = some a := by
    obtain ⟨b, hb⟩ := Option.isSome_iff_exists.mp
      (List.find?_isSome.mpr ⟨a, ha, beq_self_eq_true (name a)⟩ :
        (all.find? fun b => name b == name a).isSome)
    rw [hb, hname b (List.mem_of_find?_eq_some hb)
      (by simpa using List.find?_some hb)]
  rw [choice, chosen, hfound]

theorem choice_severity (severity : Severity) (depth : Nat) :
    choice Severity.all Severity.name depth (.text (some severity.name)) =
      .ok severity := by
  cases severity <;> exact choice_name (by decide) (by decide) depth

theorem choice_codeStyle (style : CodeStyle) (depth : Nat) :
    choice CodeStyle.all CodeStyle.name depth (.text (some style.name)) =
      .ok style := by
  cases style <;> exact choice_name (by decide) (by decide) depth

theorem choice_indentStyle (style : IndentStyle) (depth : Nat) :
    choice IndentStyle.all IndentStyle.name depth
      (.text (some style.name)) = .ok style := by
  cases style <;> exact choice_name (by decide) (by decide) depth

/-- Options are read back, but for null. -/
theorem ruleOfMapping_options {v : Value} {depth : Nat}
    (hw : w.Reorders v) (ho : v.Ordered)
    (hd : depth + v.depth ≤ Json.maxDepth) (sofar : Details)
    (hsofar : sofar.options = none) (rest : Json.Mapping) :
    ruleOfMapping depth sofar (.member (some "options") w.document rest) =
      ruleOfMapping depth
        { sofar with options := some (if v = .null then none else some v) }
        rest := by
  have hvalue := value_of_reorders hw ho hd
  have hname : "options" ≠ "severity" := by decide
  cases w with
  | null =>
    cases hw
    simp [ruleOfMapping, hsofar, Value.document]
  | bool | number | text =>
    cases hw
    simp_all [ruleOfMapping, Value.document]
  | array =>
    obtain ⟨_, rfl, -⟩ := hw
    simp_all [ruleOfMapping, Value.document]
  | object =>
    obtain ⟨_, _, rfl, -⟩ := hw
    simp_all [ruleOfMapping, Value.document]

theorem ruleOfMapping_severity {severity : Severity} {depth : Nat}
    (sofar : Details) (hsofar : sofar.severity = none)
    (rest : Json.Mapping) :
    ruleOfMapping depth sofar
        (.member (some "severity") (.text (some severity.name)) rest) =
      ruleOfMapping depth { sofar with severity := some severity }
        rest := by
  simp [ruleOfMapping, hsofar, choice_severity]

/-- What the settings say about a rule is read back, but for options that
are null. -/
theorem ruleSetting_of_reorders {r : RuleSetting}
    (hw : w.Reorders r.toValue)
    (h : ∀ v ∈ r.options, v.Ordered ∧ v.depth + 3 ≤ Json.maxDepth) :
    ruleSetting 2 w.document = .ok r.withoutNull := by
  match r, h with
  | .plain severity, _ =>
    rw [hw.eq_of_depth rfl]
    cases severity <;> rfl
  | .detailed severity none, _ =>
    obtain ⟨ms, listed, rfl, hperm, hlists⟩ := hw.exists_lists
    obtain rfl := List.perm_singleton.mp hperm
    obtain ⟨w, r, rfl, hw, hr⟩ := hlists.exists_cons
    rw [hw.eq_of_depth rfl, hr.eq_nil, Value.document, ruleSetting, enter,
      if_pos (by decide), Members.document, Value.document,
      ruleOfMapping_severity _ rfl]
    rfl
  | .detailed severity (some v), h =>
    obtain ⟨ho, hd⟩ := h v rfl
    rw [RuleSetting.toValue_some] at hw
    obtain ⟨ms, listed, rfl, hperm, hlists⟩ := hw.exists_lists
    rw [Value.document, ruleSetting, enter, if_pos (by decide)]
    have hv : 3 + v.depth ≤ Json.maxDepth := by omega
    rcases List.perm_pair.mp hperm with rfl | rfl
    all_goals
      obtain ⟨w₁, r, rfl, hw₁, hr⟩ := hlists.exists_cons
      obtain ⟨w₂, r, rfl, hw₂, hr⟩ := hr.exists_cons
      rw [hr.eq_nil]
      simp only [Members.document]
    · rw [ruleOfMapping_options hw₁ ho hv _ rfl, hw₂.eq_of_depth rfl,
        Value.document, ruleOfMapping_severity _ rfl]
      cases v <;> rfl
    · rw [hw₁.eq_of_depth rfl, Value.document,
        ruleOfMapping_severity _ rfl, ruleOfMapping_options hw₂ ho hv _ rfl]
      cases v <;> rfl

end SettingsReader

/-! ## The fields of the written form -/

namespace Settings

variable {s : Settings} {e : String × Value}

/-- Which fields are written, and what is written for each. -/
inductive Field (s : Settings) : String × Value → Prop
  | codeStyle : Field s ("code_style", .text s.codeStyle.name)
  | indentStyle : Field s ("indent_style", .text s.indentStyle.name)
  | indentSize : Field s ("indent_size", .ofNat s.indentSize)
  | maxLineLength {n : Nat} (h : s.maxLineLength = some n) :
      Field s ("max_line_length", .ofNat n)
  | experimental : Field s ("experimental", .bool s.experimental)
  | rules (h : s.rules ≠ []) : Field s ("rules",
      .object (.ofList (s.rules.map fun e => (e.1, e.2.toValue))))
  | properties (h : s.properties ≠ []) :
      Field s ("properties", .object (.ofList s.properties))

/-- **The fields of the written form, one by one** (specification, §12): the
written settings have these and no others. -/
theorem mem_members_iff : e ∈ s.members ↔ s.Field e := by
  constructor
  · intro he
    simp only [members, List.mem_append, List.mem_cons, List.not_mem_nil,
      or_false, Option.mem_toList, Option.map_eq_some_iff] at he
    rcases he with
      ((((rfl | rfl | rfl) | ⟨n, hn, rfl⟩) | rfl) | hrules) | hproperties
    · exact .codeStyle
    · exact .indentStyle
    · exact .indentSize
    · exact .maxLineLength hn
    · exact .experimental
    · split_ifs at hrules with hempty
      · cases hrules
      · rw [List.mem_singleton.mp hrules]
        exact .rules (by simpa using hempty)
    · split_ifs at hproperties with hempty
      · cases hproperties
      · rw [List.mem_singleton.mp hproperties]
        exact .properties (by simpa using hempty)
  · intro he
    cases he <;> simp_all [members]

theorem nodup_members (s : Settings) : (s.members.map Prod.fst).Nodup := by
  cases hlimit : s.maxLineLength <;> cases hrules : s.rules.isEmpty <;>
    cases hproperties : s.properties.isEmpty <;>
    simp [members, hlimit, hrules, hproperties]

theorem toList_members_perm (s : Settings) :
    List.Perm (Members.ofList s.members).toList s.members := by
  rw [Members.toList_ofList]
  exact NameMap.ofList_perm s.nodup_members

/-! ## Numbers and nesting of the written form -/

theorem Sound.toList_rules (h : s.Sound) :
    (Members.ofList (s.rules.map fun e => (e.1, e.2.toValue))).toList =
      s.rules.map fun e => (e.1, e.2.toValue) := by
  rw [Members.toList_ofList, (h.rules.mapValues _).ofList_eq]

theorem Sound.toList_properties (h : s.Sound) :
    (Members.ofList s.properties).toList = s.properties := by
  rw [Members.toList_ofList, h.properties.ofList_eq]

/-- Where the numbers in the written form come from. -/
theorem Sound.mem_numbers (h : s.Sound) {n : Number}
    (hn : n ∈ s.toValue.numbers) :
    n = .int s.indentSize ∨ (∃ k ∈ s.maxLineLength, n = .int k) ∨
      (∃ e ∈ s.rules, ∃ v ∈ e.2.options, n ∈ v.numbers) ∨
        ∃ e ∈ s.properties, n ∈ e.2.numbers := by
  rw [toValue, Value.numbers, Members.mem_numbers] at hn
  obtain ⟨e, he, hn⟩ := hn
  cases mem_members_iff.mp (s.toList_members_perm.mem_iff.mp he) with
  | codeStyle | indentStyle | experimental => cases hn
  | indentSize => exact Or.inl (List.mem_singleton.mp hn)
  | maxLineLength hk =>
    exact Or.inr (Or.inl ⟨_, hk, List.mem_singleton.mp hn⟩)
  | rules =>
    rw [Value.numbers, Members.mem_numbers, h.toList_rules] at hn
    obtain ⟨m, hm, hn⟩ := hn
    obtain ⟨e, he, rfl⟩ := List.mem_map.mp hm
    exact Or.inr (Or.inr (Or.inl
      ⟨e, he, RuleSetting.exists_of_mem_numbers hn⟩))
  | properties =>
    rw [Value.numbers, Members.mem_numbers, h.toList_properties] at hn
    exact Or.inr (Or.inr (Or.inr hn))

/-- The written form nests one deeper than its fields. -/
theorem depth_toValue_le_iff {k : Nat} :
    s.toValue.depth ≤ k + 1 ↔ ∀ e, s.Field e → e.2.depth ≤ k := by
  rw [toValue, Value.depth, Nat.add_le_add_iff_right, Members.depth_le_iff]
  simp only [s.toList_members_perm.mem_iff, mem_members_iff]

theorem Field.depth_le (h : s.Field e) :
    e.2.depth + 1 ≤ s.toValue.depth := by
  have hmem := s.toList_members_perm.mem_iff.mpr (mem_members_iff.mpr h)
  exact Nat.succ_le_succ (Members.depth_le_of_mem hmem)

/-- Options of rules are three levels down. -/
theorem Sound.depth_options (h : s.Sound) {r : String × RuleSetting}
    (hr : r ∈ s.rules) {v : Value} (hv : v ∈ r.2.options) :
    v.depth + 3 ≤ s.toValue.depth := by
  have hfield := (Field.rules (List.ne_nil_of_mem hr)).depth_le
  have hsetting : r.2.toValue.depth ≤
      (Members.ofList (s.rules.map fun e => (e.1, e.2.toValue))).depth := by
    refine Members.depth_le_of_mem (e := (r.1, r.2.toValue)) ?_
    rw [h.toList_rules]
    exact List.mem_map_of_mem hr
  have hoptions := RuleSetting.depth_options hv
  rw [Value.depth] at hfield
  omega

theorem Sound.depth_property (h : s.Sound) {q : String × Value}
    (hq : q ∈ s.properties) : q.2.depth + 2 ≤ s.toValue.depth := by
  have hfield := (Field.properties (List.ne_nil_of_mem hq)).depth_le
  have hvalue : q.2.depth ≤ (Members.ofList s.properties).depth := by
    refine Members.depth_le_of_mem ?_
    rwa [h.toList_properties]
  rw [Value.depth] at hfield
  omega

/-! ## Reading the whole -/

open SettingsReader

theorem Sound.nameMap_rules (h : s.Sound)
    (hd : s.toValue.depth ≤ Json.maxDepth) {w : Value}
    (hw : w.Reorders
      (.object (.ofList (s.rules.map fun e => (e.1, e.2.toValue))))) :
    nameMap ruleSetting 1 w.document = .ok s.withoutNulls.rules := by
  refine nameMap_of_reorders h.rules hw fun e he w hw => ?_
  refine ruleSetting_of_reorders hw fun v hv => ⟨(h.options e he v hv).1, ?_⟩
  have hdepth := h.depth_options he hv
  omega

/-- Properties are read back as they are. -/
theorem Sound.nameMap_properties (h : s.Sound)
    (hd : s.toValue.depth ≤ Json.maxDepth) {w : Value}
    (hw : w.Reorders (.object (.ofList s.properties))) :
    nameMap value 1 w.document = .ok s.properties := by
  have hsame : s.properties.map (fun e => (e.1, id e.2)) = s.properties :=
    List.map_id s.properties
  rw [← hsame] at hw ⊢
  refine nameMap_of_reorders h.properties hw fun e he w hw => ?_
  have hdepth := h.depth_property he
  have hfits : 2 + e.2.depth ≤ Json.maxDepth := by omega
  exact value_of_reorders hw (h.values e he).1 hfits

/-- What is read of the limit on lines. -/
def limitRead : Option Nat → Read (Option Nat)
  | none => .ok none
  | some n => lineLengthOfValue (.ofNat n)

/-- Take one field over from other settings. -/
def adopt (u : Settings) (name : String) (t : Settings) : Settings where
  codeStyle := if name = "code_style" then u.codeStyle else t.codeStyle
  indentStyle :=
    if name = "indent_style" then u.indentStyle else t.indentStyle
  indentSize := if name = "indent_size" then u.indentSize else t.indentSize
  maxLineLength :=
    if name = "max_line_length" then u.maxLineLength else t.maxLineLength
  experimental :=
    if name = "experimental" then u.experimental else t.experimental
  rules := if name = "rules" then u.rules else t.rules
  properties := if name = "properties" then u.properties else t.properties

/-- Fields that are taken over stay as they are when others follow. -/
theorem foldl_adopt (u : Settings) (names : List String) (t : Settings) :
    names.foldl (fun t name => u.adopt name t) t =
      { codeStyle :=
          if "code_style" ∈ names then u.codeStyle else t.codeStyle
        indentStyle :=
          if "indent_style" ∈ names then u.indentStyle else t.indentStyle
        indentSize :=
          if "indent_size" ∈ names then u.indentSize else t.indentSize
        maxLineLength :=
          if "max_line_length" ∈ names then u.maxLineLength
          else t.maxLineLength
        experimental :=
          if "experimental" ∈ names then u.experimental else t.experimental
        rules := if "rules" ∈ names then u.rules else t.rules
        properties :=
          if "properties" ∈ names then u.properties else t.properties } := by
  induction names generalizing t with
  | nil => rfl
  | cons name names ih =>
    rw [List.foldl_cons, ih]
    simp only [adopt, List.mem_cons, Settings.mk.injEq]
    refine ⟨?_, ?_, ?_, ?_, ?_, ?_, ?_⟩ <;> split_ifs <;> simp_all

/-- Every field but the limit on lines is read back. -/
theorem Sound.field?_eq (h : s.Sound)
    (hd : s.toValue.depth ≤ Json.maxDepth) (he : s.Field e) {w : Value}
    (hw : w.Reorders e.2) (t : Settings) :
    field? e.1 1 t w.document = some
      (if e.1 = "max_line_length" then
        (limitRead s.maxLineLength).map ({ t with maxLineLength := · })
      else .ok (s.withoutNulls.adopt e.1 t)) := by
  cases he with
  | codeStyle =>
    rw [hw.eq_of_depth rfl]
    simp [field?, Value.document, choice_codeStyle, adopt, withoutNulls,
      Except.map]
  | indentStyle =>
    rw [hw.eq_of_depth rfl]
    simp [field?, Value.document, choice_indentStyle, adopt, withoutNulls,
      Except.map]
  | indentSize =>
    have hsize : size (.number (some (.int s.indentSize))) =
        .ok s.indentSize := by simp [size, found]
    rw [hw.eq_of_depth rfl]
    simp [field?, Value.ofNat, Value.document, hsize, adopt, withoutNulls,
      Except.map]
  | maxLineLength hn =>
    rw [hw.eq_of_depth rfl, hn]
    simp [field?, Value.ofNat, Value.document, lineLength, value,
      Json.Document.value?, limitRead]
  | experimental =>
    rw [hw.eq_of_depth rfl]
    simp [field?, Value.document, boolean, adopt, withoutNulls, Except.map]
  | rules =>
    simp [field?, h.nameMap_rules hd hw, adopt, Except.map]
  | properties =>
    simp [field?, h.nameMap_properties hd hw, adopt, withoutNulls,
      Except.map]

/-- Fields are read one after the other, in whatever order they come. -/
theorem ofMapping_of_lists {depth : Nat}
    {read : String × Value → Settings → Read Settings}
    (listed : List (String × Value)) (ms : Members) (hms : ms.Lists listed)
    (hread : ∀ e ∈ listed, ∀ (w : Value) (t : Settings), w.Reorders e.2 →
      field? e.1 depth t w.document = some (read e t))
    (seen : List String) (hnodup : (seen ++ listed.map Prod.fst).Nodup)
    (t : Settings) :
    ofMapping depth seen t ms.document =
      listed.foldlM (fun t e => read e t) t := by
  induction listed generalizing ms seen t with
  | nil =>
    rw [hms.eq_nil]
    rfl
  | cons e listed ih =>
    obtain ⟨w, r, rfl, hw, hr⟩ := hms.exists_cons
    obtain ⟨hfirst, hrest⟩ := List.forall_mem_cons.mp hread
    have hswap : (seen ++ e.1 :: listed.map Prod.fst).Perm
        ((e.1 :: seen) ++ listed.map Prod.fst) := List.perm_middle
    have hlater := hswap.nodup_iff.mp hnodup
    have hseen : e.1 ∉ seen := by
      rw [List.cons_append, List.nodup_cons] at hlater
      exact fun hmem => hlater.1 (List.mem_append_left _ hmem)
    rw [Members.document, ofMapping, hfirst w t hw, List.foldlM_cons]
    simp only [List.contains_eq_mem, decide_eq_false hseen,
      Bool.false_eq_true, if_false]
    cases read e t with
    | error fault => rfl
    | ok t' => exact ih r hr hrest (e.1 :: seen) hlater t'

/-- If one thing cannot be read and all others can, its fault is the
answer, wherever it stands. -/
theorem foldlM_eq_error {α : Type} {read : α → Settings → Read Settings}
    {fault : Fault} (bad : α) (hbad : ∀ t, read bad t = .error fault)
    (l : List α) (hmem : bad ∈ l)
    (hothers : ∀ a ∈ l, a ≠ bad → ∀ t, ∃ t', read a t = .ok t')
    (t : Settings) : l.foldlM (fun t a => read a t) t = .error fault := by
  induction l generalizing t with
  | nil => cases hmem
  | cons a l ih =>
    rw [List.foldlM_cons]
    by_cases ha : a = bad
    · rw [ha, hbad]
      rfl
    · obtain ⟨hfirst, hrest⟩ := List.forall_mem_cons.mp hothers
      obtain ⟨t', ht'⟩ := hfirst ha t
      rw [ht']
      exact ih ((List.mem_cons.mp hmem).resolve_left (Ne.symm ha)) hrest t'

/-- Settings as they come back, with what was read of the limit on
lines. -/
def comeBack (s : Settings) (limit : Option Nat) : Settings :=
  { s.withoutNulls with maxLineLength := limit }

/-- All fields that are written make up the settings: one that is left out
has its default value. -/
theorem foldl_adopt_fields {limit : Option Nat}
    {listed : List (String × Value)} (hfield : ∀ e, e ∈ listed ↔ s.Field e)
    (hlimit : limitRead s.maxLineLength = .ok limit) :
    listed.foldl (fun t e => (s.comeBack limit).adopt e.1 t) {} =
      s.comeBack limit := by
  have hin : ∀ {e}, s.Field e → e.1 ∈ listed.map Prod.fst := fun he =>
    List.mem_map_of_mem ((hfield _).mpr he)
  have hnames := foldl_adopt (s.comeBack limit) (listed.map Prod.fst) {}
  rw [List.foldl_map] at hnames
  rw [hnames]
  simp only [comeBack, if_pos (hin .codeStyle), if_pos (hin .indentStyle),
    if_pos (hin .indentSize), if_pos (hin .experimental),
    Settings.mk.injEq, true_and]
  -- What is not written is what the settings start with.
  refine ⟨?_, ?_, ?_⟩
  · split_ifs with hmem
    · rfl
    · cases hnone : s.maxLineLength with
      | some n => exact absurd (hin (.maxLineLength hnone)) hmem
      | none =>
        rw [hnone, limitRead] at hlimit
        exact Except.ok.inj hlimit
  · split_ifs with hmem
    · rfl
    · have hnone : s.rules = [] := by
        by_contra hne
        exact hmem (hin (.rules hne))
      simp [withoutNulls, hnone]
  · split_ifs with hmem
    · rfl
    · have hnone : s.properties = [] := by
        by_contra hne
        exact hmem (hin (.properties hne))
      simp [withoutNulls, hnone]

/-- Everything but the limit on lines is read back. -/
theorem Sound.ofDocument_of_reorders (h : s.Sound)
    (hd : s.toValue.depth ≤ Json.maxDepth) {w : Value}
    (hw : w.Reorders s.toValue) :
    ofDocument w.document = (limitRead s.maxLineLength).map s.comeBack := by
  obtain ⟨ms, listed, rfl, hperm, hlists⟩ := hw.exists_lists
  replace hperm := hperm.trans s.toList_members_perm
  have hfield : ∀ e, e ∈ listed ↔ s.Field e := fun e =>
    hperm.mem_iff.trans mem_members_iff
  have hnodup : ([] ++ listed.map Prod.fst).Nodup :=
    (hperm.map Prod.fst).nodup_iff.mpr s.nodup_members
  rw [Value.document, ofDocument, enter, if_pos (by decide),
    ofMapping_of_lists listed ms hlists (fun e he w t hw =>
      h.field?_eq hd ((hfield e).mp he) hw t) [] hnodup]
  cases hlimit : limitRead s.maxLineLength with
  | error fault =>
    -- the limit is there, and nothing else has its name
    obtain ⟨n, hn⟩ : ∃ n, s.maxLineLength = some n := by
      cases hnone : s.maxLineLength with
      | none => simp [hnone, limitRead] at hlimit
      | some n => exact ⟨n, rfl⟩
    refine foldlM_eq_error ("max_line_length", .ofNat n)
      (fun t => rfl) listed ((hfield _).mpr (.maxLineLength hn)) ?_ {}
    intro e he hne t
    have hname : e.1 ≠ "max_line_length" := by
      cases (hfield e).mp he with
      | maxLineLength hn' =>
        rw [hn] at hn'
        cases hn'
        exact absurd rfl hne
      | _ => simp
    exact ⟨_, if_neg hname⟩
  | ok limit =>
    have hread : (fun (t : Settings) (e : String × Value) =>
        if e.1 = "max_line_length" then
          (Except.ok limit : Read (Option Nat)).map
            ({ t with maxLineLength := · })
        else .ok (s.withoutNulls.adopt e.1 t)) =
        fun t e => pure ((s.comeBack limit).adopt e.1 t) := by
      funext t e
      split_ifs with hname <;>
        simp [Except.map, adopt, comeBack, hname, pure, Except.pure]
    rw [hread, List.foldlM_pure, foldl_adopt_fields hfield hlimit]
    rfl

/-- What is parsed from a text that is read as settings were printed. -/
theorem Sound.parseBy_print (h : s.Sound)
    (hd : s.toValue.depth ≤ Json.maxDepth)
    (yaml : String → Option Settings)
    {read : String → Json.Document × Bool} {w : Value} {text : String}
    (hw : w.Reorders s.toValue) (hread : read text = (w.document, true)) :
    parseBy yaml read .json text =
      ((limitRead s.maxLineLength).map s.comeBack).mapError
        Rejection.json := by
  simp only [parseBy, ofReading, hread, h.ofDocument_of_reorders hd hw,
    if_true]
  cases limitRead s.maxLineLength <;> rfl

/-- Integers always read back, so only the other numbers need the
hypothesis. -/
theorem Sound.readsBack (h : s.Sound)
    (hfloats : ∀ d, .float d ∈ s.toValue.numbers →
      (Number.float d).ReadsBack) :
    ∀ n ∈ s.toValue.numbers, n.ReadsBack := by
  intro n hn
  cases n with
  | float d => exact hfloats d hn
  | int i =>
    have hbounds : -(Number.negBound : Int) ≤ i ∧ i < Number.intBound := by
      rcases h.mem_numbers hn with hi | ⟨k, hk, hi⟩ | ⟨e, he, v, hv, hi⟩ |
        ⟨e, he, hi⟩
      · cases hi
        have hsize := h.indentSize
        omega
      · cases hi
        have hlimit := h.maxLineLength k hk
        omega
      · exact (h.options e he v hv).2 i hi
      · exact (h.values e he).2 i hi
    exact Number.readsBack_int hbounds.1 hbounds.2

/-- What is parsed from the written form of settings, by the reader and
the printer of this library. -/
theorem Sound.parse_write (h : s.Sound)
    (hd : s.toValue.depth ≤ Json.maxDepth)
    (hfloats : ∀ d, .float d ∈ s.toValue.numbers →
      (Number.float d).ReadsBack) :
    parse .json s.toValue.write =
      ((limitRead s.maxLineLength).map s.comeBack).mapError
        Rejection.json :=
  h.parseBy_print hd _ s.toValue.reorders_self
    (Json.Document.read_write (h.readsBack hfloats))

end Settings

/-- The limit on lines is read back exactly if it is positive and fits a
signed word. -/
theorem Settings.limitRead_eq_ok_iff (limit : Option Nat) :
    limitRead limit = .ok limit ↔ ∀ n ∈ limit, 1 ≤ n ∧ n ≤ 2 ^ 63 - 1 := by
  cases limit with
  | none => simp [limitRead]
  | some n =>
    have hbound : (Number.negBound : Int) = 2 ^ 63 := by decide
    simp only [limitRead, Value.ofNat, SettingsReader.lineLengthOfValue, hbound,
      Option.mem_some_iff, forall_eq']
    split_ifs with hfits hzero
    · simp
      omega
    · simp
      omega
    · simp [SettingsReader.unfit]
      omega

/-- Settings pass the check if they have an indentation and mention only
rules with valid identities. -/
theorem Settings.check_eq_ok_iff {path : String} {s t : Settings} :
    check path s = .ok t ↔
    s = t ∧ 1 ≤ s.indentSize ∧ ∀ id ∈ NameMap.names s.rules,
      RuleId.isValid id = true := by
  have hvalid : (sortedNames (NameMap.names s.rules)).find? (fun id =>
      !RuleId.isValid id) = none ↔
      ∀ id ∈ NameMap.names s.rules, RuleId.isValid id = true := by
        simp [mem_sortedNames]
  rw [check, ← hvalid]
  split_ifs with hzero
  · simp [hzero]
  · have hsize : 1 ≤ s.indentSize := by omega
    cases (sortedNames (NameMap.names s.rules)).find? (fun id =>
        !RuleId.isValid id) with
    | some id => simp
    | none => simp [hsize]

/-- **Writing settings and reading them back.** Take settings made from the
default ones step by step, that do not nest too deeply. Write them with
their members in any order, by any printer, and load what was printed with
any reader that gives back what was written. The outcome is the same
settings, up to options that are null, if and only if there is an
indentation, every rule that is mentioned has a valid identity, and the
limit on lines, if there is one, is positive and fits a signed word.
Specification, §12. -/
theorem load_print_iff (print : Value → String)
    (read : String → Json.Document × Bool)
    (yaml : String → Option Settings) (s : Settings) (hs : s.Built)
    (hdepth : s.toValue.depth ≤ Json.maxDepth) (w : Value)
    (hw : w.Reorders s.toValue)
    (hfaithful : read (print w) = (w.document, true)) :
    Settings.loadBy (Settings.parseBy yaml read) "lintkit.json" (print w) =
        .ok s.withoutNulls ↔
      1 ≤ s.indentSize ∧
        (∀ id ∈ NameMap.names s.rules, RuleId.isValid id = true) ∧
        ∀ n ∈ s.maxLineLength, 1 ≤ n ∧ n ≤ 2 ^ 63 - 1 := by
  have hformat : SettingsFormat.ofPath? "lintkit.json" = some .json := by
    decide
  have hparse := hs.sound.parseBy_print hdepth yaml hw hfaithful
  simp only [Settings.loadBy, hformat, hparse]
  rw [← Settings.limitRead_eq_ok_iff]
  cases hlimit : Settings.limitRead s.maxLineLength with
  | error fault => simp [Except.map, Except.mapError]
  | ok limit =>
    have hnames : NameMap.names (s.comeBack limit).rules =
        NameMap.names s.rules :=
      NameMap.names_map RuleSetting.withoutNull s.rules
    have hsame : s.comeBack limit = s.withoutNulls ↔
        limit = s.maxLineLength := by
      simp [Settings.comeBack, Settings.withoutNulls, Settings.mk.injEq]
    simp only [Except.map, Except.mapError, Settings.check_eq_ok_iff, hsame,
      hnames, Except.ok.injEq]
    exact and_rotate

/-- A rule whose options are null, another rule, a property with a fraction
and a limit on lines, written as they are declared and with the rules in
the wrong order, by the printer and the reader of this library. With the
longest limit that fits, the settings come back; with a limit one longer
they do not. -/
theorem load_print_iff_longest :
    let built (limit : Nat) : Settings :=
      ((({ maxLineLength := some limit } : Settings).withRule "x:a"
        (.detailed .warn (some .null))).withRule "x:b"
          (.plain .error)).withProperty "half" (.number (.float ⟨false, 5, -1⟩))
    let written (limit : Nat) : Value :=
      .object (.cons "code_style" (.text "ktlint_official")
        (.cons "indent_style" (.text "space")
        (.cons "indent_size" (.ofNat 4)
        (.cons "max_line_length" (.ofNat limit)
        (.cons "experimental" (.bool false)
        (.cons "rules"
          (.object (.cons "x:b" (.text "error")
            (.cons "x:a" (.object (.cons "severity" (.text "warn")
              (.cons "options" .null .nil))) .nil)))
        (.cons "properties"
          (.object (.cons "half" (.number (.float ⟨false, 5, -1⟩)) .nil))
          .nil)))))))
    Settings.load "lintkit.json" (written (2 ^ 63 - 1)).write =
        .ok (built (2 ^ 63 - 1)).withoutNulls ∧
      ¬ Settings.load "lintkit.json" (written (2 ^ 63)).write =
        .ok (built (2 ^ 63)).withoutNulls := by
  intro built written
  have hhalf : (Number.float ⟨false, 5, -1⟩).ReadsBack := by
    have hnearest : Json.Binary.nearest? 5 1 =
        some ⟨5629499534213120, -50⟩ := by decide +kernel
    have hscale : Json.Binary.scale? ⟨5629499534213120, -50⟩ (-1) =
        some ⟨4503599627370496, -53⟩ := by
      rw [Json.Binary.scale?]
      decide +kernel
    have hdecimal : Json.Decimal.ofBinary false ⟨4503599627370496, -53⟩ =
        ⟨false, 5, -1⟩ := by decide +kernel
    refine ⟨⟨false, true, 5, -1⟩, by decide +kernel, ?_⟩
    simp [Json.Literal.toNumber?, hnearest, hscale, hdecimal]
  have hbuilt : ∀ limit < Number.intBound, (built limit).Built := by
    intro limit hlimit
    have hlines : ({ maxLineLength := some limit } : Settings).Built :=
      Settings.Built.default.withMaxLineLength (by simpa using hlimit)
    have hnull : ∀ v ∈ (RuleSetting.detailed .warn (some .null)).options,
        v.Proper := by
      simp [RuleSetting.options, Value.Proper, Value.Ordered, Value.numbers]
    have hplain : ∀ v ∈ (RuleSetting.plain .error).options, v.Proper := by
      simp [RuleSetting.options]
    refine ((hlines.withRule "x:a" hnull).withRule "x:b"
      hplain).withProperty "half" ?_
    simp [Value.Proper, Value.Ordered, Value.numbers]
  have hnumbers : ∀ limit < Number.intBound,
      ∀ n ∈ (written limit).numbers, n.ReadsBack := by
    intro limit hlimit n hn
    simp [written, Value.numbers, Members.numbers, Value.ofNat] at hn
    rcases hn with rfl | rfl | rfl
    · exact Number.readsBack_int (by decide) (by decide)
    · exact Number.readsBack_int (by omega) (by exact_mod_cast hlimit)
    · exact hhalf
  have hwritten : ∀ limit, (written limit).Reorders (built limit).toValue := by
    intro limit
    refine ⟨_, (built limit).members, rfl,
      (built limit).toList_members_perm.symm, ?_⟩
    refine ⟨_, _, rfl, Value.reorders_self _, _, _, rfl,
      Value.reorders_self _, _, _, rfl, Value.reorders_self _, _, _, rfl,
      Value.reorders_self _, _, _, rfl, Value.reorders_self _, _, _, rfl,
      ?_, _, _, rfl, Value.reorders_self _, rfl⟩
    -- the rules and the members of one of them stand the other way round
    refine ⟨_, [("x:b", .text "error"),
      ("x:a", (RuleSetting.detailed .warn (some .null)).toValue)], rfl,
      List.Perm.swap _ _ _, _, _, rfl, Value.reorders_self _, _, _, rfl, ?_,
      rfl⟩
    exact ⟨_, [("severity", .text "warn"), ("options", .null)], rfl,
      List.Perm.swap _ _ _, _, _, rfl, rfl, _, _, rfl, rfl, rfl⟩
  have hdepth : ∀ limit, (built limit).toValue.depth ≤ Json.maxDepth := by
    intro limit
    refine (Settings.depth_toValue_le_iff (k := 126)).mpr fun e he => ?_
    cases he with
    | rules => exact (by decide : 2 ≤ 126)
    | properties => exact (by decide : 1 ≤ 126)
    | _ => exact Nat.zero_le _
  have hiff : ∀ limit < Number.intBound, _ := fun limit hlimit =>
    load_print_iff Value.write Json.Document.read YamlSettings.ofText?
      (built limit) (hbuilt limit hlimit)
      (hdepth limit) (written limit)
      (hwritten limit) (Json.Document.read_write (hnumbers limit hlimit))
  constructor
  · refine (hiff _ (by decide)).mpr ⟨by decide, by decide, ?_⟩
    simp [built, Settings.withRule, Settings.withProperty]
  · refine fun hload => ?_
    have hlimit := ((hiff _ (by decide)).mp hload).2.2
    simp [built, Settings.withRule, Settings.withProperty] at hlimit

end TreeLint
