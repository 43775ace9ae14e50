import TreeLint.Proofs.Lint.Registration
import TreeLint.Proofs.Rule.Order

/-!
# What settings cannot be told apart

Settings decide which rules run, and a rule that runs sees the code style,
the values of the keys it declares and the options given to it. That is all:
settings that agree on it (`Registry.SeesAlike`) have the same rules run in
the same order, and those do the same to every file
(`settings_noninterference`).

The argument has two halves. Which rules run is worked out from the disabled
rules alone, so both settings make the same rules run, and only rules that
are active (`Engine.active_of_order`). And all that is ever asked of the
settings after that is the view of each rule that runs, which is the same on
both sides (`Registry.SeesAlike.view_eq`).

Specification, §4.2 and §12: a rule sees the keys it declared and its own
options, and nothing else.
-/

namespace TreeLint

variable {σ : Type}

/-! ## Settings that agree on what rules see -/

/-- The rules of a registry cannot tell two settings apart: the same ones
run, and those that run see the same. -/
structure Registry.SeesAlike (r : Registry σ) (s s' : Settings) : Prop where
  disabled : r.disabled s = r.disabled s'
  codeStyle : s.codeStyle = s'.codeStyle
  values : ∀ p ∈ r.providers.values, p.isActive s = true → ∀ key ∈ p.keys,
    s.valueOf? key = s'.valueOf? key
  options : ∀ p ∈ r.providers.values, p.isActive s = true →
    s.ruleOptions? p.id = s'.ruleOptions? p.id

/-- The keys that always mean the typed settings. -/
def SettingsKey.builtIn : List SettingsKey :=
  [codeStyle, indentStyle, indentSize, maxLineLength]

/-- A free-form property does not shadow a built-in key. -/
theorem Settings.valueOf?_builtIn {key : SettingsKey}
    (hkey : key ∈ SettingsKey.builtIn) (s : Settings)
    (properties : NameMap Json.Value) :
    { s with properties }.valueOf? key = s.valueOf? key := by
  simp only [SettingsKey.builtIn, List.mem_cons, List.not_mem_nil,
    or_false] at hkey
  rcases hkey with rfl | rfl | rfl | rfl <;> rfl

theorem Settings.valueOf?_withProperty {s : Settings} {name key : SettingsKey}
    (h : key ≠ name) (value : Json.Value) :
    (s.withProperty name value).valueOf? key = s.valueOf? key := by
  simp only [valueOf?, withProperty, NameMap.find?_insert, if_neg h.symm]

theorem Settings.ruleOptions?_withRule (s : Settings) (rule id : RuleId)
    (setting : RuleSetting) :
    (s.withRule rule setting).ruleOptions? id = if rule =
      id then setting.options else s.ruleOptions? id := by
  simp only [ruleOptions?, withRule, NameMap.find?_insert]
  split <;> rfl

/-- Only a severity that turns a rule off makes a difference to whether it
is disabled. -/
theorem Settings.isDisabled_withRule (s : Settings) (rule id : RuleId)
    (setting : RuleSetting) :
    (s.withRule rule setting).isDisabled id =
      if rule = id then setting.severity == .off else s.isDisabled id := by
  simp only [isDisabled, severity?, withRule, NameMap.find?_insert]
  split
  · exact Bool.eq_iff_iff.mpr (by simp)
  · rfl

namespace Registry

/-- Whether rules run depends on what is turned off, the code style and the
experimental flag. -/
theorem disabled_congr {r : Registry σ} {s s' : Settings}
    (hoff : ∀ id, s.isDisabled id = s'.isDisabled id)
    (hstyle : s.codeStyle = s'.codeStyle)
    (hexperimental : s.experimental = s'.experimental) :
    r.disabled s = r.disabled s' := by
  have hactive : ∀ i : RuleInfo, i.isActive s = i.isActive s' := by
    intro i
    rw [RuleInfo.isActive, RuleInfo.isActive, hoff, hstyle, hexperimental]
  simp only [disabled, hactive]

/-- What no rule of a registry notices about settings. -/
structure Blind (r : Registry σ) (s : Settings) : Prop where
  /-- A property under a name that no active rule declares, or under the
  name of a built-in key. -/
  property : ∀ name value,
    (∀ p ∈ r.providers.values, p.isActive s = true → name ∈ p.keys →
      name ∈ SettingsKey.builtIn) →
    r.SeesAlike s (s.withProperty name value)
  /-- How seriously a rule is taken, as long as it is not turned off. -/
  severity : ∀ rule options x y, x ≠ Severity.off → y ≠ Severity.off →
    r.SeesAlike (s.withRule rule (.detailed x options))
      (s.withRule rule (.detailed y options))
  /-- The options of a rule that does not run, or that is not in the
  registry at all. -/
  options : ∀ rule x options options',
    (∀ p ∈ r.providers.values,
      p.isActive (s.withRule rule (.detailed x options)) = true → p.id ≠ rule) →
    r.SeesAlike (s.withRule rule (.detailed x options))
      (s.withRule rule (.detailed x options'))
  /-- Whether experimental rules are wanted, if the same rules run anyway. -/
  experimental : ∀ experimental, r.disabled
    { s with experimental } = r.disabled s →
    r.SeesAlike s { s with experimental }

/-- **What nobody declares nobody sees** (specification, §4.2): the four
ways to change settings without changing which rules run and what they see.
-/
theorem blind (r : Registry σ) (s : Settings) : r.Blind s where
  property name value hname :=
    { disabled := disabled_congr (fun _ => rfl) rfl rfl
      codeStyle := rfl
      values := fun p hp hactive key hkey => by
        -- A built-in key is never looked up among the properties.
        by_cases hsame : key = name
        · have hbuiltIn : key ∈ SettingsKey.builtIn :=
            hsame ▸ hname p hp hactive (hsame ▸ hkey)
          exact (Settings.valueOf?_builtIn hbuiltIn s _).symm
        · exact (Settings.valueOf?_withProperty hsame value).symm
      options := fun _ _ _ => rfl }
  severity rule options x y hx hy :=
    { disabled := by
        refine disabled_congr (fun id => ?_) rfl rfl
        have hnot : ∀ z : Severity, z ≠ .off → (z == Severity.off) = false :=
          fun z hz => by simpa using hz
        simp only [Settings.isDisabled_withRule, RuleSetting.severity,
          hnot x hx, hnot y hy]
      codeStyle := rfl
      values := fun _ _ _ _ _ => rfl
      options := fun p _ _ => by
        simp only [Settings.ruleOptions?_withRule, RuleSetting.options] }
  options rule x options options' hother :=
    { disabled := by
        refine disabled_congr (fun id => ?_) rfl rfl
        simp only [Settings.isDisabled_withRule, RuleSetting.severity]
      codeStyle := rfl
      values := fun _ _ _ _ _ => rfl
      options := fun p hp hactive => by
        have hne : rule ≠ p.id := (hother p hp hactive).symm
        simp only [Settings.ruleOptions?_withRule, if_neg hne] }
  experimental _ hsame :=
    { disabled := hsame.symm
      codeStyle := rfl
      values := fun _ _ _ _ _ => rfl
      options := fun _ _ _ => rfl }

/-- Rules that run see the same. -/
theorem SeesAlike.view_eq {r : Registry σ} {s s' : Settings}
    (h : r.SeesAlike s s') {p : Provider σ} (hp : p ∈ r.providers.values)
    (hactive : p.isActive s = true) :
    s.view p.id p.keys = s'.view p.id p.keys := by
  have hvalues : (p.keys.map fun k => (k, s.valueOf? k)) = p.keys.map fun k =>
      (k, s'.valueOf? k) :=
    List.map_congr_left fun k hk => by rw [h.values p hp hactive k hk]
  simp only [Settings.view, hvalues, h.codeStyle, h.options p hp hactive]

end Registry

/-! ## Only active rules run -/

namespace Engine

variable {e : Engine σ} {s s' : Settings} {recreate : Bool}
  {providers : List (Provider σ)}

/-- A rule that runs is one of those registered, and active. -/
theorem active_of_order (htable : e.registry.Tabled)
    (hcache : e.cache.Faithful e.registry)
    (h : (e.order s recreate).2 = .ok providers) :
    ∀ p ∈ providers, p ∈ e.registry.providers.values ∧ p.isActive s = true := by
  intro p hp
  have hsort := (hcache.resolve s recreate).2
  obtain ⟨order, rest, hplaced, ⟨rfl, hok⟩ | ⟨-, herror⟩⟩ :=
    sort_placed htable.nodup_infos (e.registry.disabled s)
  · simp only [Engine.order, hsort, hok, Except.map, Except.ok.injEq] at h
    rw [← h, List.mem_filterMap] at hp
    obtain ⟨i, hi, hfind⟩ := hp
    have hrunning : i ∈ RuleInfo.enabled e.registry.infos
        (e.registry.disabled s) := by
      rw [← hplaced.perm.mem_iff]
      exact List.mem_append_left _ hi
    have hmem : (i.id, p) ∈ e.registry.providers :=
      NameMap.mem_entries_of_find? hfind
    refine ⟨List.mem_map.mpr ⟨_, hmem, rfl⟩, ?_⟩
    -- an inactive rule would be among the disabled ones, and those are not
    -- placed
    by_contra hinactive
    have hid : i.id ∈ e.registry.disabled s := by
      refine List.mem_map.mpr ⟨p.toRuleInfo,
        List.mem_filter.mpr ⟨List.mem_map.mpr ⟨_, hmem, rfl⟩, ?_⟩, ?_⟩
      · simpa using hinactive
      · exact htable.id_of_find? hfind
    simp [RuleInfo.enabled, hid] at hrunning
  · simp [Engine.order, hsort, herror, Except.map] at h

/-- Which rules run, and in which order, is a matter of the disabled rules. -/
theorem order_congr (h : e.registry.disabled s = e.registry.disabled s')
    (recreate : Bool) :
    e.order s recreate = e.order s' recreate := by
  simp only [Engine.order, h]

end Engine

/-! ## Sessions -/

/-- Making and binding rules asks the settings for their views only. -/
theorem Assembly.build_congr {s s' : Settings} {ps : List (Provider σ)}
    (h : ∀ p ∈ ps, s.view p.id p.keys = s'.view p.id p.keys) (roster : Roster σ)
    (made : MadeCounts) (notes : List Note) (fragile : Bool) :
    Assembly.build s ps roster made notes fragile =
      Assembly.build s' ps roster made notes fragile := by
  induction ps generalizing roster made notes fragile with
  | nil => rfl
  | cons p ps ih =>
    obtain ⟨hp, hps⟩ := List.forall_mem_cons.mp h
    simp only [Assembly.build, hp, ih hps]

namespace Session

variable {w : Session σ} {s s' : Settings} {ps : List (Provider σ)} {fuel : Nat}
  {policy : Policy}

theorem pass_congr (h : ∀ p ∈ ps, s.view p.id p.keys = s'.view p.id p.keys)
    (w : Session σ) :
    w.pass fuel policy s ps = w.pass fuel policy s' ps := by
  simp only [pass, assemble, Assembly.build_congr h]

theorem passes_congr (h : ∀ p ∈ ps, s.view p.id p.keys = s'.view p.id p.keys)
    (left : Nat) (tally : Tally) (w : Session σ) :
    w.passes fuel policy s ps left tally =
      w.passes fuel policy s' ps left tally := by
  induction left generalizing tally w with
  | zero => rfl
  | succ left ih => simp only [passes, pass_congr h, ih]

/-- What begins by asking which rules run is the same if it is so for rules
that see the same. -/
theorem after_order_congr {α : Type} (htable : w.engine.registry.Tabled)
    (hcache : w.engine.cache.Faithful w.engine.registry)
    (h : w.engine.registry.SeesAlike s s')
    {go go' : List (Provider σ) → Session σ →
        Option (Session σ × Except EngineError α)}
    (hgo : ∀ ps, (∀ p ∈ ps, s.view p.id p.keys = s'.view p.id p.keys) → ∀ w,
      go ps w = go' ps w) :
    (match w.order s false with
      | (w, .error e) => some (w, .error e)
      | (w, .ok providers) =>
        go providers w : Option (Session σ × Except EngineError α)) =
    (match w.order s' false with
      | (w, .error e) => some (w, .error e)
      | (w, .ok providers) => go' providers w) := by
  have hsame : w.order s false = w.order s' false := by
    simp only [order, Engine.order_congr h.disabled]
  rw [← hsame]
  simp only [order]
  cases hresult : (w.engine.order s false).2 with
  | error e => rfl
  | ok providers =>
    refine hgo providers (fun p hp => ?_) _
    obtain ⟨hmem, hactive⟩ := Engine.active_of_order htable hcache hresult p hp
    exact h.view_eq hmem hactive

end Session

/-- **Settings are observed only through what rules declare.** Take an
engine with any rules, fresh or not, whose remembered orders are right, and
two settings under which the same rules are disabled, the code style is the
same, every key that an active rule declares has the same value, and every
active rule has the same options. Then the same rules run in the same order,
or fail to for the same reason, and linting and formatting give the same
results and leave the same session, the tree of the file included, under
every policy. In particular no rule notices any of the rest
(`Registry.Blind`), and a free-form property never shadows a built-in key.
Specification, §4.2, §4.4 and §12. -/
theorem settings_noninterference (ps : List (Provider σ)) (w : Session σ)
    (hreg : Registry.ofProviders w.engine.registry.id ps =
      .ok w.engine.registry)
    (hcache : w.engine.cache.Faithful w.engine.registry) (s s' : Settings)
    (h : w.engine.registry.SeesAlike s s') :
    (∀ recreate, w.engine.order s recreate = w.engine.order s' recreate) ∧
      (∀ fuel, w.lint fuel s = w.lint fuel s') ∧
      (∀ fuel policy, w.format fuel policy s = w.format fuel policy s') ∧
      w.engine.registry.Blind s ∧
      ∀ key ∈ SettingsKey.builtIn, ∀ properties,
        { s with properties }.valueOf? key = s.valueOf? key := by
  have htable := Registry.tabled_of_ofProviders hreg
  refine ⟨fun recreate => Engine.order_congr h.disabled recreate, fun fuel =>
    ?_, fun fuel policy => ?_,
    Registry.blind _ s, fun key hkey properties =>
      Settings.valueOf?_builtIn hkey s properties⟩
  · exact Session.after_order_congr htable hcache h fun ps hps w =>
      Session.pass_congr hps w
  · refine Session.after_order_congr htable hcache h fun ps hps w => ?_
    rw [Session.passes_congr hps]

/-- A rule that reports the value of a property, and one that is turned off,
under settings of which the second differ in a severity, the options of the
rule that is turned off, the longest line, the experimental flag, a property
that nobody declares and one with the name of a built-in key that the first
rule reads. -/
theorem settings_noninterference_depth :
    let depth : Provider Unit :=
      .ofVisitor { id := "x:depth", keys := ["depth", "indent_size"] }
        fun view =>
      { memory := (), before := fun _ _ =>
          .emit 0 ((view.text? "depth").getD "") false fun _ => .finish () }
    let off : Provider Unit :=
      .idle { id := "x:off", keys := ["max_line_length"] }
    let s : Settings :=
      { rules := [("x:depth", .plain .warn), ("x:off", .plain .off)],
        properties := [("depth", .text "3")] }
    let s' : Settings :=
      { rules := [("x:depth", .plain .error),
        ("x:off", .detailed .off (some (.bool true)))]
        maxLineLength := some 80
        experimental := true
        properties := [("depth", .text "3"), ("indent_size", .text "7"),
          ("other", .bool true)] }
    ∃ r, Registry.ofProviders 0 [depth, off] = .ok r ∧
      r.disabled s = ["x:off"] ∧ r.SeesAlike s s' ∧
      ∀ t : Tree,
        (∀ fuel, Session.lint fuel s { engine := { registry := r },
                                       tree := t } =
          Session.lint fuel s' { engine := { registry := r }, tree := t }) ∧
        ∀ fuel policy, Session.format fuel policy s
          { engine := { registry := r }, tree := t } =
          Session.format fuel policy s' { engine := { registry := r },
                                          tree := t } := by
  intro depth off s s'
  let r : Registry Unit := ⟨0, [("x:depth", depth), ("x:off", off)]⟩
  have hreg : Registry.ofProviders 0 [depth, off] = .ok r := by
    have hlt : ¬"x:off" < "x:depth" := by decide
    rw [Registry.ofProviders_eq ⟨by decide, by decide, by decide⟩]
    simp [NameMap.ofList, NameMap.insert, hlt, r, depth, off,
      Provider.ofVisitor, Provider.idle]
  have hsees : r.SeesAlike s s' := by
    refine ⟨by decide, rfl, fun p hp hactive => ?_, fun p hp hactive => ?_⟩
    · rcases List.mem_pair.mp hp with rfl | rfl
      · decide
      · exact absurd hactive (by decide)
    · rcases List.mem_pair.mp hp with rfl | rfl
      · rfl
      · exact absurd hactive (by decide)
  refine ⟨r, hreg, by decide, hsees, fun t => ?_⟩
  obtain ⟨-, hlint, hformat, -⟩ := settings_noninterference [depth, off]
    { engine := { registry := r }, tree := t }
    hreg (OrderCache.faithful_empty r) s s' hsees
  exact ⟨hlint, hformat⟩

end TreeLint
