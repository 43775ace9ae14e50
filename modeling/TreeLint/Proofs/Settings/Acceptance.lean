import TreeLint.Proofs.Rule.Id
import TreeLint.Proofs.Rule.Registry
import TreeLint.Proofs.Settings.RoundTrip
import TreeLint.Proofs.Text.Bytes

/-!
# Settings that are handed out

Whatever a parser makes of a file is checked before it is handed out. It is
handed out as it is if there is an indentation and every rule that is
mentioned has a well-formed identity (`check_eq_ok_iff_acceptable`). If an
identity is to blame, the one that is reported comes first in the order of
bytes among all that are not well formed (`check_eq_invalidRuleId_iff`), so
the order in which the rules are listed makes no difference (`check_perm`).

Registries check identities by the same rule. `settings_handed_out` puts
together what is known about the two.

Specification, §12 (rule identities are validated) and §7.
-/

namespace TreeLint

namespace Settings

variable {parser : SettingsFormat → String → Except Rejection Settings}
  {path path' text : String} {s c : Settings} {id : RuleId}

/-- Settings that can be worked with. -/
structure Acceptable (s : Settings) : Prop where
  indented : 1 ≤ s.indentSize
  wellFormed : ∀ id ∈ NameMap.names s.rules, RuleId.WellFormed id

/-- Of the identities that are mentioned and not well formed, the one whose
bytes come first. -/
structure FirstOffence (s : Settings) (id : RuleId) : Prop where
  mentioned : id ∈ NameMap.names s.rules
  illFormed : ¬RuleId.WellFormed id
  first : ∀ other ∈ NameMap.names s.rules, ¬RuleId.WellFormed other →
    Text.bytes id ≤ Text.bytes other

/-- What a parser makes of the text of a file, in the format that the name
of the file asks for. -/
def ParsedBy (parser : SettingsFormat → String → Except Rejection Settings)
    (path text : String) (s : Settings) : Prop :=
  ∃ format, SettingsFormat.ofPath? path = some format ∧
    parser format text = .ok s

/-! ## Checking -/

/-- Settings pass the check unchanged exactly if all rules they name are
well formed (specification, §12). -/
theorem check_eq_ok_iff_acceptable :
    check path s = .ok c ↔ s = c ∧ s.Acceptable := by
  simp only [check_eq_ok_iff, RuleId.isValid_iff]
  exact and_congr_right fun _ =>
    ⟨fun h => ⟨h.1, h.2⟩, fun h => ⟨h.indented, h.wellFormed⟩⟩

/-- The first offence is the first name, in increasing order, that fails the
test of validity. -/
theorem firstOffence_iff :
    s.FirstOffence id ↔ (sortedNames (NameMap.names s.rules)).find? (fun id =>
      !RuleId.isValid id) = some id := by
  have hfails : ∀ id, (!RuleId.isValid id) = true ↔ ¬RuleId.WellFormed id :=
      fun id => by
    rw [← RuleId.isValid_iff, Bool.not_eq_true', Bool.not_eq_true]
  simp only [find?_sortedNames_eq_some_iff, hfails, ← Text.bytes_le_iff]
  exact ⟨fun h => ⟨h.mentioned, h.illFormed, h.first⟩, fun h =>
    ⟨h.1, h.2.1, h.2.2⟩⟩

/-- An identity is reported if there is an indentation and it is the first
offence. -/
theorem check_eq_invalidRuleId_iff :
    check path s = .error (.invalidRuleId path' id) ↔
    path = path' ∧ 1 ≤ s.indentSize ∧ s.FirstOffence id := by
  rw [firstOffence_iff, check]
  split_ifs with hzero
  · simp [hzero]
  · have hsize : 1 ≤ s.indentSize := by omega
    split
    · next found hfound => simp [hfound, hsize]
    · next hnone => simp [hnone]

/-- Settings that are refused although there is an indentation have a first
offence. -/
theorem exists_firstOffence (hsize : 1 ≤ s.indentSize) (h : ¬s.Acceptable) :
    ∃ id, s.FirstOffence id := by
  cases hfound : (sortedNames (NameMap.names s.rules)).find? (fun id =>
      !RuleId.isValid id) with
  | some id => exact ⟨id, firstOffence_iff.mpr hfound⟩
  | none =>
    refine absurd ⟨hsize, fun id hid => ?_⟩ h
    have hvalid := List.find?_eq_none.mp hfound id (mem_sortedNames.mpr hid)
    rw [← RuleId.isValid_iff]
    simpa using hvalid

/-- The same rules in another order are refused for the same reason. -/
theorem check_perm {rules : NameMap RuleSetting} (h : List.Perm rules s.rules)
    (e : LoadError) :
    check path { s with rules := rules } = .error e ↔
      check path s = .error e := by
  have hnames : sortedNames (NameMap.names rules) =
      sortedNames (NameMap.names s.rules) :=
    sortedNames_congr fun x => (h.map Prod.fst).mem_iff
  simp only [check, hnames]
  split_ifs
  · rfl
  · split
    · rfl
    · simp

/-! ## Loading -/

theorem ParsedBy.loadBy_eq (h : s.ParsedBy parser path text) :
    loadBy parser path text = check path s := by
  obtain ⟨format, hformat, hparse⟩ := h
  simp only [loadBy, hformat, hparse]

/-- What is handed out was parsed and passed the check. -/
theorem of_loadBy_eq_ok (h : loadBy parser path text = .ok c) :
    c.ParsedBy parser path text ∧ c.Acceptable := by
  rw [loadBy] at h
  split at h
  · cases h
  · next format hformat =>
    split at h
    · cases h
    · next s hparse =>
      obtain ⟨rfl, hs⟩ := check_eq_ok_iff_acceptable.mp h
      exact ⟨⟨format, hformat, hparse⟩, hs⟩

end Settings

/-- A registry accepts rules exactly if they have well-formed identities,
wait for well-formed identities only, and are different. -/
theorem Registry.acceptable_iff {σ : Type} {ps : List (Provider σ)} :
    Registry.Acceptable ps ↔
    (∀ p ∈ ps, RuleId.WellFormed p.id) ∧
      (∀ p ∈ ps, ∀ target ∈ p.targets, RuleId.WellFormed target) ∧
      (ps.map fun p => p.id).Nodup := by
  simp only [← RuleId.isValid_iff]
  exact ⟨fun h => ⟨h.valid, h.targets, h.distinct⟩, fun h =>
    ⟨h.1, h.2.1, h.2.2⟩⟩

/-- **Settings are handed out as they were parsed, or the first offence is
reported.** Let a parser make settings of a file, any parser and any
settings. They are handed out as they are if they have an indentation and
every rule that is mentioned has a well-formed identity, and nothing else is
ever handed out. If there is an indentation, what is reported otherwise is
the first offence in the order of bytes, in whatever order the rules are
listed. `Settings.load` is the case of the parsers of this library.

The valid identities are the well-formed ones, their rule set and name are
words and give them back, and they are the ones that registries accept:
rules can be registered if their identities and those they wait for are well
formed and no identity occurs twice, and the first identity that is not well
formed is reported. Specification, §7 and §12. -/
theorem settings_handed_out :
    (∀ parser path text c, Settings.loadBy parser path text = .ok c →
      c.ParsedBy parser path text ∧ c.Acceptable) ∧
    (∀ parser path text s, Settings.ParsedBy parser path text s →
      (s.Acceptable → Settings.loadBy parser path text = .ok s) ∧
      (s.indentSize = 0 → Settings.loadBy parser path text =
        .error (.invalid path .noIndent)) ∧
      (1 ≤ s.indentSize → ¬s.Acceptable →
        ∃ id, Settings.loadBy parser path text =
          .error (.invalidRuleId path id) ∧ s.FirstOffence id) ∧
      ∀ rules, List.Perm rules s.rules → ∀ e,
        Settings.check path { s with rules := rules } = .error e ↔
          Settings.loadBy parser path text = .error e) ∧
    (∀ id, RuleId.isValid id = true ↔ RuleId.WellFormed id) ∧
    (∀ id, RuleId.isValid id = true →
      RuleId.ruleSet id ++ ":" ++ RuleId.name id = id ∧
      RuleId.IsWord (RuleId.ruleSet id) ∧ RuleId.IsWord (RuleId.name id)) ∧
    ∀ (σ : Type) (i : RegistryId),
      (∀ ps : List (Provider σ), (∃ r, Registry.ofProviders i ps = .ok r) ↔
        (∀ p ∈ ps, RuleId.WellFormed p.id) ∧
          (∀ p ∈ ps, ∀ target ∈ p.targets, RuleId.WellFormed target) ∧
          (ps.map fun p => p.id).Nodup) ∧
      ∀ (front back : List (Provider σ)) (p : Provider σ),
        (∃ r, Registry.ofProviders i front = .ok r) →
        (Registry.ofProviders i (front ++ p :: back) =
          .error (.invalidRuleId p.id) ↔ ¬RuleId.WellFormed p.id) := by
  refine ⟨fun parser path text c => Settings.of_loadBy_eq_ok,
    fun parser path text s hs => ?_,
    fun id => RuleId.isValid_iff, fun id hid =>
      (RuleId.isValid_iff.mp hid).parts, fun σ i => ⟨fun ps => ?_, ?_⟩⟩
  · rw [hs.loadBy_eq]
    refine ⟨fun hok => Settings.check_eq_ok_iff_acceptable.mpr ⟨rfl, hok⟩,
      fun hzero => ?_, fun hsize hbad => ?_,
      fun rules hperm e => Settings.check_perm hperm e⟩
    · simp [Settings.check, hzero]
    · obtain ⟨id, hid⟩ := Settings.exists_firstOffence hsize hbad
      exact ⟨id, Settings.check_eq_invalidRuleId_iff.mpr ⟨rfl, hsize, hid⟩, hid⟩
  · rw [Registry.exists_ofProviders_iff, Registry.acceptable_iff]
  · intro front back p hfront
    rw [← RuleId.isValid_iff, Bool.not_eq_true]
    exact ⟨Registry.not_isValid_of_ofProviders,
      fun hp => Registry.ofProviders_invalid
        (Registry.exists_ofProviders_iff.mp hfront) hp i back⟩

/-- Two of three rules have identities that are not well formed, one without
a rule set and one with a colon too many. The second one comes first,
however the rules are listed. -/
theorem settings_handed_out_two_offences :
    let s : Settings :=
      ((({} : Settings).withRule "x:y" (.plain .warn)).withRule "b"
        (.plain .off)).withRule "a:b:c" (.plain .off)
    s.ParsedBy Settings.parse "lintkit.json" s.toValue.write ∧
      Settings.load "lintkit.json" s.toValue.write =
        .error (.invalidRuleId "lintkit.json" "a:b:c") ∧
      Settings.check "lintkit.json" { s with rules := s.rules.reverse } =
        .error (.invalidRuleId "lintkit.json" "a:b:c") ∧
      RuleId.ruleSet "x:y" ++ ":" ++ RuleId.name "x:y" = "x:y" := by
  intro s
  obtain ⟨-, hparsed, -, hparts, -⟩ := settings_handed_out
  have hbuilt : s.Built :=
    ((Settings.Built.default.withRule "x:y"
      (by simp [RuleSetting.options])).withRule "b"
      (by simp [RuleSetting.options])).withRule "a:b:c"
        (by simp [RuleSetting.options])
  have hdepth : s.toValue.depth ≤ Json.maxDepth := by
    refine (Settings.depth_toValue_le_iff (k := 126)).mpr fun e he => ?_
    cases he with
    | rules => exact (by decide : 1 ≤ 126)
    | properties hne => exact absurd rfl hne
    | _ => exact Nat.zero_le _
  have hfloats : ∀ d, .float d ∈ s.toValue.numbers →
      (Json.Number.float d).ReadsBack := by
    intro d hd
    rcases hbuilt.sound.mem_numbers hd with hi | ⟨_, hk, -⟩ |
      ⟨e, he, v, hv, -⟩ | ⟨e, he, -⟩
    · cases hi
    · cases hk
    · have hnone : ∀ e ∈ s.rules, e.2.options = none := by decide
      rw [hnone e he] at hv
      cases hv
    · cases he
  have hread : Settings.parse .json s.toValue.write = .ok s :=
    hbuilt.sound.parse_write hdepth hfloats
  have hs : s.ParsedBy Settings.parse "lintkit.json" s.toValue.write :=
    ⟨.json, by decide, hread⟩
  have hnames : NameMap.names s.rules = ["a:b:c", "b", "x:y"] := by decide
  obtain ⟨-, -, hrefused, horder⟩ := hparsed _ _ _ _ hs
  have hbad : ¬s.Acceptable :=
    fun h => absurd (h.wellFormed "b" (by decide)) (by decide)
  obtain ⟨id, hload, hfirst⟩ := hrefused (by decide) hbad
  have hid : id = "a:b:c" := by
    have hmem := hfirst.mentioned
    simp only [hnames, List.mem_cons, List.not_mem_nil, or_false] at hmem
    rcases hmem with rfl | rfl | rfl
    · rfl
    · exact absurd (hfirst.first "a:b:c" (by decide) (by decide)) (by decide)
    · exact absurd (by decide) hfirst.illFormed
  subst hid
  exact ⟨hs, hload, (horder _ (List.reverse_perm _) _).mpr hload,
    (hparts "x:y" (by decide)).1⟩

end TreeLint
