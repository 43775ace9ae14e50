import TreeLint.Proofs.NameMap
import TreeLint.Rule.Registry

/-!
# What registries know

A registry is made by adding one rule after the other, if all of them have
valid identities, wait only for valid identities, and are different
(`exists_ofProviders_iff`). The rules that it finds are among those it was
made of.

Specification, §7: malformed and duplicate identities are rejected.
-/

namespace TreeLint.Registry

variable {σ : Type} {map next final : NameMap (Provider σ)} {p : Provider σ}
  {ps : List (Provider σ)}

/-- A rule is added if its identity and the rules it waits for have valid
identities and it is new. -/
theorem add_eq_ok_iff : add map p = .ok next ↔ RuleId.isValid p.id = true ∧
    (∀ target ∈ p.targets, RuleId.isValid target = true) ∧ p.id ∉ map.names ∧
    next = NameMap.insert p.id p map := by
  have hvalid : p.targets.find? (fun t => !RuleId.isValid t) = none ↔
      ∀ target ∈ p.targets, RuleId.isValid target = true := by simp
  rw [add, ← NameMap.contains_iff, ← hvalid]
  cases RuleId.isValid p.id with
  | false => simp
  | true =>
    cases p.targets.find? (fun t => !RuleId.isValid t) with
    | some target => simp
    | none => cases NameMap.contains p.id map <;> simp [eq_comm]

theorem eq_insert_of_add (h : add map p = .ok next) :
    next = NameMap.insert p.id p map :=
  (add_eq_ok_iff.mp h).2.2.2

/-- Adding several rules is adding the first one and then the others. -/
theorem foldlM_add_cons (h : (p :: ps).foldlM add map = .ok final) :
    ∃ next, add map p = .ok next ∧ ps.foldlM add next = .ok final := by
  rw [List.foldlM_cons] at h
  cases hadd : add map p with
  | error e => simp [hadd, bind, Except.bind] at h
  | ok next => exact ⟨next, rfl, by simpa [hadd, bind, Except.bind] using h⟩

/-! ## Which rules can be put in a registry -/

/-- Rules that a registry accepts, one after the other. -/
structure Acceptable (ps : List (Provider σ)) : Prop where
  valid : ∀ p ∈ ps, RuleId.isValid p.id = true
  targets : ∀ p ∈ ps, ∀ target ∈ p.targets, RuleId.isValid target = true
  distinct : (ps.map fun p => p.id).Nodup

/-- A registry takes in rules that it accepts, by their identities. -/
theorem foldlM_add (h : Acceptable ps) (hnew : ∀ p ∈ ps, p.id ∉ map.names) :
    ps.foldlM add map = .ok ((ps.map fun p => (p.id, p)).foldl (fun map e =>
      NameMap.insert e.1 e.2 map) map) := by
  induction ps generalizing map with
  | nil => rfl
  | cons p ps ih =>
    obtain ⟨hp, hps⟩ := List.forall_mem_cons.mp h.valid
    obtain ⟨htp, htps⟩ := List.forall_mem_cons.mp h.targets
    obtain ⟨hpnew, hpsnew⟩ := List.forall_mem_cons.mp hnew
    have hdistinct := h.distinct
    rw [List.map_cons, List.nodup_cons] at hdistinct
    have hadd : add map p = .ok (NameMap.insert p.id p map) :=
      add_eq_ok_iff.mpr ⟨hp, htp, hpnew, rfl⟩
    have hrest : ∀ q ∈ ps, q.id ∉ (NameMap.insert p.id p map).names := by
      intro q hq hmem
      rcases (NameMap.mem_names_insert q.id p).mp hmem with heq | hmem
      · exact hdistinct.1 (heq ▸ List.mem_map_of_mem hq)
      · exact hpsnew q hq hmem
    rw [List.foldlM_cons, hadd]
    exact ih ⟨hps, htps, hdistinct.2⟩ hrest

/-- A registry takes in nothing else: each rule that was added passed the
checks. -/
theorem acceptable_of_foldlM_add (h : ps.foldlM add map = .ok final) :
    Acceptable ps ∧ ∀ p ∈ ps, p.id ∉ map.names := by
  induction ps generalizing map with
  | nil => exact ⟨⟨by simp, by simp, List.nodup_nil⟩, by simp⟩
  | cons p ps ih =>
    obtain ⟨next, hadd, hrest⟩ := foldlM_add_cons h
    obtain ⟨hp, htp, hpnew, rfl⟩ := add_eq_ok_iff.mp hadd
    obtain ⟨hps, hnew⟩ := ih hrest
    have hother : ∀ q ∈ ps, q.id ≠ p.id ∧ q.id ∉ map.names := fun q hq => by
      have hq := hnew q hq
      rwa [NameMap.mem_names_insert, not_or] at hq
    refine ⟨⟨List.forall_mem_cons.mpr ⟨hp, hps.valid⟩,
      List.forall_mem_cons.mpr ⟨htp, hps.targets⟩, ?_⟩,
      List.forall_mem_cons.mpr ⟨hpnew, fun q hq => (hother q hq).2⟩⟩
    rw [List.map_cons, List.nodup_cons]
    refine ⟨fun hmem => ?_, hps.distinct⟩
    obtain ⟨q, hq, hid⟩ := List.mem_map.mp hmem
    exact (hother q hq).1 hid

theorem foldlM_add_nil (h : Acceptable ps) :
    ps.foldlM add [] = .ok (NameMap.ofList (ps.map fun p => (p.id, p))) :=
  foldlM_add h fun _ _ hmem => nomatch hmem

theorem ofProviders_eq (h : Acceptable ps) (id : RegistryId) :
    ofProviders id ps =
      .ok ⟨id, NameMap.ofList (ps.map fun p => (p.id, p))⟩ := by
  simp only [ofProviders, foldlM_add_nil h]

/-- There is a registry of some rules exactly if they are acceptable. -/
theorem exists_ofProviders_iff {id : RegistryId} :
    (∃ registry, ofProviders id ps = .ok registry) ↔ Acceptable ps := by
  refine ⟨fun ⟨registry, h⟩ => ?_, fun h => ⟨_, ofProviders_eq h id⟩⟩
  unfold ofProviders at h
  split at h
  · next map hmap => exact (acceptable_of_foldlM_add hmap).1
  · cases h

/-- The first identity that is not valid is reported, whatever follows it. -/
theorem ofProviders_invalid (h : Acceptable ps)
    (hp : RuleId.isValid p.id = false) (id : RegistryId)
    (back : List (Provider σ)) :
    ofProviders id (ps ++ p :: back) = .error (.invalidRuleId p.id) := by
  have hadd : ∀ map, add map p = .error (.invalidRuleId p.id) :=
    fun map => by simp [add, hp]
  rw [ofProviders, List.foldlM_append, foldlM_add_nil h]
  simp only [bind, Except.bind, List.foldlM_cons, hadd]

/-- **A registry that refuses an identity as malformed is right to**
(specification, §7). -/
theorem not_isValid_of_foldlM_add {id : RuleId}
    (h : ps.foldlM add map = .error (.invalidRuleId id)) :
    RuleId.isValid id = false := by
  induction ps generalizing map with
  | nil => cases h
  | cons p ps ih =>
    rw [List.foldlM_cons] at h
    cases hadd : add map p with
    | ok next => exact ih (by simpa [hadd, bind, Except.bind] using h)
    | error e =>
      obtain rfl : e = .invalidRuleId id := by
        simpa [hadd, bind, Except.bind] using h
      unfold add at hadd
      split at hadd
      · next hid =>
        cases hadd
        simpa using hid
      · split at hadd
        · cases hadd
        · split at hadd <;> cases hadd

/-- An identity that is reported is not valid. -/
theorem not_isValid_of_ofProviders {i : RegistryId} {id : RuleId}
    (h : ofProviders i ps = .error (.invalidRuleId id)) :
    RuleId.isValid id = false := by
  unfold ofProviders at h
  split at h
  · cases h
  · next e hfold =>
    cases h
    exact not_isValid_of_foldlM_add hfold

/-! ## What is in a registry -/

/-- A registry holds rules that were given to it and no others. -/
theorem mem_of_foldlM_add (h : ps.foldlM add map = .ok final)
    (hp : p ∈ final.values) :
    p ∈ map.values ∨ p ∈ ps := by
  induction ps generalizing map with
  | nil =>
    cases h
    exact Or.inl hp
  | cons q ps ih =>
    obtain ⟨next, hadd, hrest⟩ := foldlM_add_cons h
    rcases ih hrest with hmem | hmem
    · rw [eq_insert_of_add hadd] at hmem
      rcases NameMap.mem_values_insert hmem with rfl | hmem
      · exact Or.inr List.mem_cons_self
      · exact Or.inl hmem
    · exact Or.inr (List.mem_cons_of_mem _ hmem)

/-- A registry holds no rules but those it was made of. -/
theorem mem_of_ofProviders {id : RegistryId} {registry : Registry σ}
    (h : ofProviders id ps = .ok registry)
    (hp : p ∈ registry.providers.values) : p ∈ ps := by
  unfold ofProviders at h
  split at h
  · next map hmap =>
    cases h
    rcases mem_of_foldlM_add hmap hp with hmem | hmem
    · cases hmem
    · exact hmem
  · cases h

/-- A registry knows no rules but those it was made of. -/
theorem mem_of_find? {id : RegistryId} {registry : Registry σ} {rule : RuleId}
    (h : ofProviders id ps = .ok registry)
    (hp : registry.find? rule = some p) : p ∈ ps :=
  mem_of_ofProviders h (NameMap.mem_of_find? hp)

/-- What adding a rule preserves holds of every registry. -/
theorem foldlM_add_induction {P : NameMap (Provider σ) → Prop}
    (hstep : ∀ map p, P map → P (NameMap.insert p.id p map)) (hmap : P map)
    (h : ps.foldlM add map = .ok final) : P final := by
  induction ps generalizing map with
  | nil =>
    cases h
    exact hmap
  | cons q ps ih =>
    obtain ⟨next, hadd, hrest⟩ := foldlM_add_cons h
    exact ih (eq_insert_of_add hadd ▸ hstep map q hmap) hrest

/-- The rules are listed by their identities, in increasing order. -/
structure Tabled (r : Registry σ) : Prop where
  sorted : NameMap.Sorted r.providers
  keyed : ∀ e ∈ r.providers, e.1 = e.2.id

/-- Every registry that is made has its rules under their own identities, in
order. -/
theorem tabled_of_ofProviders {id : RegistryId} {r : Registry σ}
    (h : ofProviders id ps = .ok r) : r.Tabled := by
  unfold ofProviders at h
  split at h
  · next map hmap =>
    cases h
    refine ⟨?_, ?_⟩
    · refine foldlM_add_induction (P := NameMap.Sorted) (fun map p hmap =>
        hmap.insert p.id p) ?_ hmap
      exact List.Pairwise.nil
    · refine foldlM_add_induction (P := fun map => ∀ e ∈ map, e.1 = e.2.id) ?_
        (List.forall_mem_nil _) hmap
      intro map p hmap e he
      rcases NameMap.mem_insert he with rfl | he
      · rfl
      · exact hmap e he
  · cases h

variable {r : Registry σ}

theorem Tabled.nodup_infos (h : r.Tabled) :
    (r.infos.map RuleInfo.id).Nodup := by
  have hids : r.infos.map RuleInfo.id = r.providers.names := by
    rw [infos, List.map_map, NameMap.names]
    exact List.map_congr_left fun e he => (h.keyed e he).symm
  rw [hids]
  exact h.sorted.nodup

theorem Tabled.id_of_find? (h : r.Tabled) {id : RuleId}
    (hp : r.find? id = some p) : p.id = id :=
  (h.keyed _ (NameMap.mem_entries_of_find? hp)).symm

end TreeLint.Registry
