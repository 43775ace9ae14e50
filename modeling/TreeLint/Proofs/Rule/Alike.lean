import TreeLint.Proofs.Rule.Registry
import TreeLint.Proofs.Rule.Waiting

/-!
# Rules that are alike

A rule says its wishes in some order, and may say one twice. Neither makes a
difference: rules that are alike but for that are sorted alike
(`sort_alike`), and contradict each other in the same way. Nor does it
matter in which order rules are put in a registry. If rules can be
registered, so can rules like them in any other order, and the registries
are alike, rule by rule (`Registry.ofProviders_alike`).

Specification, §8.
-/

namespace TreeLint

/-- Two rules say the same about themselves, but perhaps their wishes in
another order or another number of times. -/
structure RuleInfo.Alike (p q : RuleInfo) : Prop where
  id : p.id = q.id
  modifiers : ∀ m, m ∈ p.modifiers ↔ m ∈ q.modifiers
  keys : p.keys = q.keys
  codeStyle : p.codeStyle = q.codeStyle
  experimental : p.experimental = q.experimental

namespace RuleInfo.Alike

variable {p q : RuleInfo}

theorem isLate (h : p.Alike q) : p.isLate = q.isLate := by
  rw [Bool.eq_iff_iff]
  simp only [RuleInfo.isLate, List.contains_iff_mem, h.modifiers]

theorem mem_targets (h : p.Alike q) (target : RuleId) :
    target ∈ p.targets ↔ target ∈ q.targets := by
  simp only [mem_targets_iff, h.modifiers]

/-- Alike rules are active under the same settings (specification, §4.4). -/
theorem isActive (h : p.Alike q) (s : Settings) :
    p.isActive s = q.isActive s := by
  simp only [RuleInfo.isActive, h.id, h.codeStyle, h.experimental]

/-- Alike rules wait for alike rules. -/
theorem waits {m m' : NameMap RuleInfo} (h : p.Alike q)
    (hm : NameMap.Rel Alike m m') :
    p.waits m = q.waits m' := by
  have hkept : NameMap.Rel Alike
      (m.filter fun e => p.targets.contains e.1 || (p.isLate && !e.2.isLate))
      (m'.filter fun d => q.targets.contains d.1 ||
          (q.isLate && !d.2.isLate)) := by
    refine List.rel_filter ?_ hm
    rintro e d ⟨hname, hed⟩
    simp only [Bool.or_eq_true, List.contains_iff_mem, h.mem_targets, h.isLate,
      hname, hed.isLate]
  exact hkept.names_eq

end RuleInfo.Alike

/-! ## Sorting -/

/-- Two results are the same error, or related. -/
inductive ResultsAlike {ε α β : Type} (R : α → β → Prop) :
    Except ε α → Except ε β → Prop
  | ok {a : α} {b : β} (h : R a b) : ResultsAlike R (.ok a) (.ok b)
  | error (e : ε) : ResultsAlike R (.error e) (.error e)

namespace ResultsAlike

variable {ε ε' α β γ δ : Type} {R : α → β → Prop} {S : γ → δ → Prop}
  {x : Except ε α} {y : Except ε β}

theorem map {f : α → γ} {g : β → δ} (h : ResultsAlike R x y)
    (hfg : ∀ a b, R a b → S (f a) (g b)) :
    ResultsAlike S (x.map f) (y.map g) := by
  cases h with
  | ok hab => exact .ok (hfg _ _ hab)
  | error e => exact .error e

theorem mapError (h : ResultsAlike R x y) (f : ε → ε') :
    ResultsAlike R (x.mapError f) (y.mapError f) := by
  cases h with
  | ok hab => exact .ok hab
  | error e => exact .error (f e)

theorem eq {y : Except ε α} (h : ResultsAlike Eq x y) : x = y := by
  cases h with
  | ok hab => rw [hab]
  | error e => rfl

end ResultsAlike

/-- Alike rules that wait for the same. -/
def Waiting.Alike (w w' : Waiting) : Prop :=
  w.info.Alike w'.info ∧ w.waitsFor = w'.waitsFor

namespace RuleInfo

variable {rules rules' : List RuleInfo} {ws ws' : List Waiting}

/-- The same rules run on both sides, and they are alike. -/
theorem running_alike (h : List.Forall₂ Alike rules rules')
    (disabled : List RuleId) :
    NameMap.Rel Alike (running rules disabled) (running rules' disabled) := by
  have hkept : List.Forall₂ Alike (rules.filter fun r =>
      !disabled.contains r.id)
      (rules'.filter fun r => !disabled.contains r.id) :=
    List.rel_filter (fun p q hpq => by simp only [hpq.id]) h
  refine NameMap.rel_ofList
    (List.forall₂_map_left_iff.mpr (List.forall₂_map_right_iff.mpr ?_))
  exact hkept.imp fun p q hpq => ⟨hpq.id, hpq⟩

theorem waiting_alike {m m' : NameMap RuleInfo} (h : NameMap.Rel Alike m m') :
    List.Forall₂ Waiting.Alike (waiting m) (waiting m') := by
  refine List.forall₂_map_left_iff.mpr (List.forall₂_map_right_iff.mpr ?_)
  exact List.Forall₂.imp (fun e d hed => ⟨hed.2, hed.2.waits h⟩) h

/-- The first rule that waits for nothing is the same on both sides. -/
theorem find?_alike (h : List.Forall₂ Waiting.Alike ws ws') :
    Option.Rel Waiting.Alike (ws.find? fun w => w.waitsFor.isEmpty)
      (ws'.find? fun w => w.waitsFor.isEmpty) := by
  induction h with
  | nil => exact .none
  | @cons w w' _ _ hw _ ih =>
    simp only [List.find?_cons, hw.2]
    split
    · exact .some hw
    · exact ih

/-- Once a rule is placed, those that waited for it stop doing so. -/
theorem release_alike {x y : RuleId} (h : List.Forall₂ Waiting.Alike ws ws')
    (hxy : x = y) :
    List.Forall₂ Waiting.Alike
      ((ws.filter fun w => w.info.id != x).map (Waiting.release x))
      ((ws'.filter fun w => w.info.id != y).map (Waiting.release y)) := by
  subst hxy
  refine List.rel_map (R := Waiting.Alike) ?_ (List.rel_filter ?_ h)
  · rintro w w' ⟨hinfo, hwaits⟩
    exact ⟨hinfo, by simp only [Waiting.release, hwaits]⟩
  · intro w w' hw
    simp only [hw.1.id]

/-- Alike rules are placed alike, one after the other. -/
theorem place_alike (n : Nat) (h : List.Forall₂ Waiting.Alike ws ws') :
    List.Forall₂ Alike (place n ws).1 (place n ws').1 ∧
      List.Forall₂ Waiting.Alike (place n ws).2 (place n ws').2 := by
  induction n generalizing ws ws' with
  | zero => exact ⟨.nil, h⟩
  | succ n ih =>
    have hnext := find?_alike h
    simp only [place]
    generalize (ws.find? fun w => w.waitsFor.isEmpty) = next at hnext ⊢
    generalize (ws'.find? fun w => w.waitsFor.isEmpty) = next' at hnext ⊢
    cases hnext with
    | none => exact ⟨.nil, h⟩
    | some hw =>
      obtain ⟨hplaced, hstuck⟩ := ih (release_alike h hw.1.id)
      exact ⟨.cons hw.1 hplaced, hstuck⟩

/-- **Alike rules are sorted alike**, and if that cannot be done the same is
said about it. -/
theorem sort_alike (h : List.Forall₂ Alike rules rules')
    (disabled : List RuleId) :
    ResultsAlike (List.Forall₂ Alike) (sort rules disabled)
      (sort rules' disabled) := by
  have hrest := waiting_alike (running_alike h disabled)
  obtain ⟨hplaced, hstuck⟩ :=
    place_alike (waiting (running rules disabled)).length hrest
  have hblocked : ∀ {ws ws' : List Waiting}, List.Forall₂ Waiting.Alike ws ws' →
      ws.map Waiting.blocked = ws'.map Waiting.blocked := by
    intro ws ws' hws
    induction hws with
    | nil => rfl
    | cons hw _ ih =>
      simp only [List.map_cons, ih, Waiting.blocked, hw.1.id, hw.2]
  simp only [sort, ← hrest.length_eq]
  rcases hp : place (waiting (running rules disabled)).length
    (waiting (running rules disabled)) with ⟨placed, stuck⟩
  rcases hp' : place (waiting (running rules disabled)).length
      (waiting (running rules' disabled)) with
    ⟨placed', stuck'⟩
  rw [hp, hp'] at hplaced hstuck
  cases hstuck with
  | nil => exact .ok hplaced
  | cons hw hws =>
    simp only [hblocked (.cons hw hws)]
    exact .error _

/-- The order of rules is a matter of which are disabled, not of how the
disabled ones are listed. -/
theorem sort_congr {disabled disabled' : List RuleId}
    (h : ∀ id, id ∈ disabled ↔ id ∈ disabled') (rules : List RuleInfo) :
    sort rules disabled = sort rules disabled' := by
  have hcontains : ∀ id, disabled.contains id = disabled'.contains id := by
    intro id
    rw [Bool.eq_iff_iff, List.contains_iff_mem, List.contains_iff_mem]
    exact h id
  simp only [sort, running, hcontains]

end RuleInfo

/-! ## Registering -/

/-- Two rules are alike in what they say and the same in what they do. -/
structure Provider.Alike {σ : Type} (p q : Provider σ) : Prop where
  info : p.toRuleInfo.Alike q.toRuleInfo
  create : p.create = q.create

theorem Provider.ids_eq {σ : Type} {ps ks : List (Provider σ)}
    (h : List.Forall₂ Provider.Alike ps ks) :
    (ps.map fun p => p.id) = ks.map fun p => p.id := by
  have hids := List.rel_map (P := Eq) (fun p q hpq =>
    (Provider.Alike.info hpq).id) h
  rwa [List.forall₂_eq_eq_eq] at hids

namespace Registry

variable {σ : Type} {ps qs ks : List (Provider σ)} {r r' : Registry σ}

/-- The rules of two registries are alike. -/
def Alike (r r' : Registry σ) : Prop :=
  NameMap.Rel Provider.Alike r.providers r'.providers

theorem Alike.infos (h : Alike r r') :
    List.Forall₂ RuleInfo.Alike r.infos r'.infos := by
  refine List.forall₂_map_left_iff.mpr (List.forall₂_map_right_iff.mpr ?_)
  exact List.Forall₂.imp (fun e d hed => hed.2.info) h

theorem Alike.disabled_eq (h : Alike r r') (s : Settings) :
    r.disabled s = r'.disabled s := by
  have hoff : List.Forall₂ RuleInfo.Alike (r.infos.filter fun i =>
      !i.isActive s)
      (r'.infos.filter fun i => !i.isActive s) :=
    List.rel_filter (fun p q hpq => by simp only [hpq.isActive]) h.infos
  have hids := List.rel_map (P := Eq) (fun p q hpq =>
    RuleInfo.Alike.id hpq) hoff
  rwa [List.forall₂_eq_eq_eq] at hids

/-- What holds of rules, and of every rule like one of which it holds, holds
of rules like them. -/
theorem forall_of_alike {P : Provider σ → Prop}
    (hP : ∀ p q, Provider.Alike p q → P p → P q)
    (hlike : List.Forall₂ Provider.Alike ps ks) (h : ∀ p ∈ ps, P p) :
    ∀ k ∈ ks, P k := by
  induction hlike with
  | nil => exact fun k hk => nomatch hk
  | cons hpk _ ih =>
    obtain ⟨hp, hps⟩ := List.forall_mem_cons.mp h
    exact List.forall_mem_cons.mpr ⟨hP _ _ hpk hp, ih hps⟩

theorem Acceptable.alike (h : Acceptable ps)
    (hlike : List.Forall₂ Provider.Alike ps ks) : Acceptable ks where
  valid := forall_of_alike (fun _ _ hpq hp => hpq.info.id ▸ hp) hlike h.valid
  targets := forall_of_alike (fun _ _ hpq hp t ht =>
    hp t ((hpq.info.mem_targets t).mpr ht)) hlike h.targets
  distinct := Provider.ids_eq hlike ▸ h.distinct

theorem Acceptable.perm (h : Acceptable ps) (hperm : ps.Perm qs) :
    Acceptable qs where
  valid p hp := h.valid p (hperm.mem_iff.mpr hp)
  targets p hp := h.targets p (hperm.mem_iff.mpr hp)
  distinct := (hperm.map _).nodup_iff.mp h.distinct

/-- **Registries of alike rules are alike**, in whatever order the rules are
given. -/
theorem ofProviders_alike (h : Acceptable ps)
    (hlike : List.Forall₂ Provider.Alike ps ks) (hperm : ks.Perm qs)
    (i j : RegistryId) :
    ∃ r r', ofProviders i ps = .ok r ∧ ofProviders j qs = .ok r' ∧
      Alike r r' := by
  have hqs : Acceptable qs := (h.alike hlike).perm hperm
  refine ⟨_, _, ofProviders_eq h i, ofProviders_eq hqs j, ?_⟩
  have hkept : ∀ {ps : List (Provider σ)}, Acceptable ps →
      (NameMap.ofList (ps.map fun p => (p.id, p))).Perm (ps.map fun p =>
          (p.id, p)) := by
    intro ps hps
    refine NameMap.ofList_perm ?_
    rw [List.map_map]
    exact hps.distinct
  have hpairs : List.Forall₂ (fun e d => e.1 = d.1 ∧ Provider.Alike e.2 d.2)
      (ps.map fun p => (p.id, p))
      (ks.map fun p => (p.id, p)) := by
    refine List.forall₂_map_left_iff.mpr (List.forall₂_map_right_iff.mpr ?_)
    exact hlike.imp fun p q hpq => ⟨hpq.info.id, hpq⟩
  exact (NameMap.sorted_ofList _).rel_of_perm (NameMap.sorted_ofList _)
    (hkept h) hpairs
    ((hperm.map _).trans (hkept hqs).symm)

end Registry

end TreeLint
