import TreeLint.Lint.Engine
import TreeLint.Proofs.Rule.Alike
import TreeLint.Tree.Builder

/-!
# The order of registration does not matter

Engines whose registries are alike, rule by rule, go on alike: whatever both
are asked to do, they find the same rules in the same order or the same
contradiction, make the same instances, and do the same to the file. What
they remember may be under different keys and stamps, but it is right on
both sides (`OrderCache.Faithful`).

`registration_order_irrelevant` draws the conclusion for engines whose rules
were registered in different orders.

Specification, §1 and §8: the same violations and the same text regardless
of the order of registration.
-/

namespace TreeLint

variable {σ : Type}

/-! ## Remembered orders -/

namespace OrderCache

variable {c : OrderCache} {r : Registry σ} {s : Settings}

/-- What is remembered about the rules of a registry is right. -/
def Faithful (c : OrderCache) (r : Registry σ) : Prop :=
  ∀ s stamped, c.find? ⟨r.id, sortedNames (r.disabled s)⟩ = some stamped →
    stamped.result = RuleInfo.sort r.infos (r.disabled s)

theorem faithful_empty (r : Registry σ) : Faithful {} r := by
  intro s stamped h
  cases h

/-- Remembering one more result that is right. -/
theorem Faithful.remember (h : c.Faithful r) (s : Settings) :
    Faithful { entries := c.entries ++ [(⟨r.id, sortedNames (r.disabled s)⟩,
      ⟨c.next, RuleInfo.sort r.infos (r.disabled s)⟩)], next :=
        c.next + 1 } r := by
  intro s' stamped hfound
  simp only [find?, List.find?_append, Option.map_or] at hfound
  cases hold : (c.entries.find? fun e => e.1 ==
      ⟨r.id, sortedNames (r.disabled s')⟩).map Prod.snd with
  | some old =>
    rw [hold] at hfound
    cases hfound
    exact h s' _ hold
  | none =>
    rw [hold] at hfound
    simp only [List.find?_cons, List.find?_nil, Option.none_or] at hfound
    split at hfound
    · next hkey =>
      cases hfound
      have hnames : sortedNames (r.disabled s) =
          sortedNames (r.disabled s') := by simpa using hkey
      refine RuleInfo.sort_congr (fun id => ?_) _
      rw [← mem_sortedNames, hnames, mem_sortedNames]
    · cases hfound

/-- The rules of a registry are given in the right order, remembered or not. -/
theorem Faithful.resolve (h : c.Faithful r) (s : Settings) (recreate : Bool) :
    (c.resolve r.id r.infos (r.disabled s) recreate).1.Faithful r ∧
      (c.resolve r.id r.infos (r.disabled s) recreate).2.result =
        RuleInfo.sort r.infos (r.disabled s) := by
  cases recreate with
  | true => exact ⟨h, rfl⟩
  | false =>
    simp only [OrderCache.resolve, Bool.false_eq_true, if_false, get]
    split
    · next stamped hfound => exact ⟨h, h s stamped hfound⟩
    · exact ⟨h.remember s, rfl⟩

end OrderCache

/-! ## Engines -/

/-- Two engines with alike rules, of which they have made the same number of
instances. -/
structure Engine.Alike (e e' : Engine σ) : Prop where
  registry : e.registry.Alike e'.registry
  made : e.made = e'.made
  faithful : e.cache.Faithful e.registry
  faithful' : e'.cache.Faithful e'.registry

/-- Alike engines run alike rules in the same order, or see the same
contradiction. -/
theorem Engine.Alike.order {e e' : Engine σ} (h : e.Alike e') (s : Settings)
    (recreate : Bool) :
    (e.order s recreate).1.Alike (e'.order s recreate).1 ∧
      ResultsAlike (List.Forall₂ Provider.Alike) (e.order s recreate).2
        (e'.order s recreate).2 := by
  obtain ⟨hc, hresult⟩ := h.faithful.resolve s recreate
  obtain ⟨hc', hresult'⟩ := h.faithful'.resolve s recreate
  refine ⟨⟨h.registry, h.made, hc, hc'⟩, ?_⟩
  have hsort : ResultsAlike (List.Forall₂ RuleInfo.Alike)
      (RuleInfo.sort e.registry.infos (e.registry.disabled s))
      (RuleInfo.sort e'.registry.infos (e'.registry.disabled s)) := by
    rw [h.registry.disabled_eq]
    exact RuleInfo.sort_alike h.registry.infos _
  rw [← hresult, ← hresult'] at hsort
  refine hsort.map fun infos infos' hinfos =>
    List.rel_filterMap (fun i i' hi => ?_) hinfos
  rw [hi.id]
  exact h.registry.find? i'.id

/-- Alike rules are made and bound in the same way. -/
theorem Assembly.build_alike {s : Settings} {ps ps' : List (Provider σ)}
    (h : List.Forall₂ Provider.Alike ps ps') (roster : Roster σ)
    (made : MadeCounts) (notes : List Note) (fragile : Bool) :
    Assembly.build s ps roster made notes fragile =
      Assembly.build s ps' roster made notes fragile := by
  induction h generalizing roster made notes fragile with
  | nil => rfl
  | cons hp _ ih =>
    simp only [Assembly.build, hp.info.id, hp.info.keys, hp.create, ih]

/-! ## Sessions

From the rules to whole sessions: the order that is looked up, the instances
that are made, the visits, and what linting and formatting give. Each step
goes alike on both sides because the one before did. -/

namespace Session

/-- Two sessions on the same file that have gone alike so far. -/
structure Alike (w w' : Session σ) : Prop where
  engine : w.engine.Alike w'.engine
  tree : w.tree = w'.tree
  asked : w.asked = w'.asked
  notes : w.notes = w'.notes
  survived : w.survived = w'.survived

/-- Two ways to go on are alike: neither ends, or both do, with the same
result. -/
def GoAlike {α : Type} :
    Option (Session σ × α) → Option (Session σ × α) → Prop :=
  Option.Rel fun x y => x.1.Alike y.1 ∧ x.2 = y.2

variable {w w' : Session σ} {s : Settings} {ps ps' : List (Provider σ)}
  {fuel : Nat} {policy : Policy}

/-- What is done with the result the same way on both sides keeps it alike. -/
theorem GoAlike.map {α β : Type} {x y : Option (Session σ × α)}
    {f : Session σ × α → Session σ × β} (h : GoAlike x y)
    (hf : ∀ w w' a, Alike w w' → (f (w, a)).1.Alike (f (w', a)).1 ∧
      (f (w, a)).2 = (f (w', a)).2) :
    GoAlike (x.map f) (y.map f) := by
  cases h with
  | none => exact .none
  | @some p q hpq =>
    obtain ⟨w, a⟩ := p
    obtain ⟨w', a'⟩ := q
    obtain ⟨hw, rfl⟩ := hpq
    exact .some (hf w w' a hw)

theorem Alike.order (h : w.Alike w') (s : Settings) (recreate : Bool) :
    (w.order s recreate).1.Alike (w'.order s recreate).1 ∧
      ResultsAlike (List.Forall₂ Provider.Alike) (w.order s recreate).2
        (w'.order s recreate).2 := by
  obtain ⟨hengine, hresult⟩ := h.engine.order s recreate
  refine ⟨⟨hengine, h.tree, h.asked, h.notes, h.survived⟩, ?_⟩
  exact hresult.mapError EngineError.order

theorem Alike.assemble (h : w.Alike w') (s : Settings)
    (hps : List.Forall₂ Provider.Alike ps ps') :
    (w.assemble s ps).1.Alike (w'.assemble s ps').1 ∧
      (w.assemble s ps).2 = (w'.assemble s ps').2 := by
  simp only [Session.assemble, Assembly.build_alike hps, h.engine.made, h.notes,
    h.survived, and_true]
  exact ⟨⟨h.engine.registry, rfl, h.engine.faithful, h.engine.faithful'⟩,
    h.tree, h.asked, rfl, rfl⟩

theorem Alike.visit (h : w.Alike w') (roster : Roster σ) :
    GoAlike (w.visit fuel policy roster) (w'.visit fuel policy roster) := by
  simp only [Session.visit, h.asked, h.tree]
  cases roster.visit fuel policy w'.asked w'.tree with
  | none => exact .none
  | some v =>
    exact .some ⟨⟨h.engine, rfl, rfl, by rw [h.notes], h.survived⟩, rfl⟩

theorem Alike.pass (h : w.Alike w') (hps : List.Forall₂ Provider.Alike ps ps') :
    GoAlike (w.pass fuel policy s ps) (w'.pass fuel policy s ps') := by
  obtain ⟨hw, hroster⟩ := h.assemble s hps
  simp only [Session.pass]
  rcases hstart : w.assemble s ps with ⟨w₁, r⟩
  rcases hstart' : w'.assemble s ps' with ⟨w₁', r'⟩
  rw [hstart, hstart'] at hw hroster
  cases hroster
  cases r with
  | error e => exact .some ⟨hw, rfl⟩
  | ok roster => exact (hw.visit roster).map fun _ _ _ h => ⟨h, rfl⟩

/-- All visits of formatting go alike. -/
theorem Alike.passes (h : w.Alike w') (hps : List.Forall₂ Provider.Alike ps ps')
    (left : Nat) (tally : Tally) :
    GoAlike (w.passes fuel policy s ps left tally)
      (w'.passes fuel policy s ps' left tally) := by
  -- By induction on the visits that are left.
  induction left generalizing w w' tally with
  | zero => exact .some ⟨h, rfl⟩
  | succ left ih =>
    have hpass : GoAlike (w.pass fuel policy s ps)
        (w'.pass fuel policy s ps') := h.pass hps
    simp only [Session.passes]
    generalize w.pass fuel policy s ps = x at hpass ⊢
    generalize w'.pass fuel policy s ps' = y at hpass ⊢
    cases hpass with
    | none => exact .none
    | @some p q hpq =>
      obtain ⟨w₁, r⟩ := p
      obtain ⟨w₁', r'⟩ := q
      obtain ⟨hw, rfl⟩ := hpq
      cases r with
      | error e => exact .some ⟨hw, rfl⟩
      | ok outcome =>
        simp only
        split
        · exact ih hw _
        · exact .some ⟨hw, rfl⟩

/-- What begins by asking which rules run goes on alike if it does so with
alike rules. -/
theorem Alike.after_order {α : Type} (h : w.Alike w') (s : Settings)
    {go : List (Provider σ) → Session σ →
        Option (Session σ × Except EngineError α)}
    (hgo : ∀ {ps ps' w w'}, List.Forall₂ Provider.Alike ps ps' → Alike w w' →
      GoAlike (go ps w) (go ps' w')) :
    GoAlike
      (match w.order s false with
        | (w, .error e) => some (w, .error e)
        | (w, .ok providers) => go providers w)
      (match w'.order s false with
        | (w, .error e) => some (w, .error e)
        | (w, .ok providers) => go providers w) := by
  obtain ⟨hw, hresult⟩ := h.order s false
  generalize w.order s false = x at hw hresult ⊢
  generalize w'.order s false = y at hw hresult ⊢
  obtain ⟨w₁, r⟩ := x
  obtain ⟨w₁', r'⟩ := y
  cases hresult with
  | error e => exact .some ⟨hw, rfl⟩
  | ok hps => exact hgo hps hw

theorem Alike.lint (h : w.Alike w') (fuel : Nat) (s : Settings) :
    GoAlike (w.lint fuel s) (w'.lint fuel s) :=
  h.after_order s fun hps hw => hw.pass hps

theorem Alike.format (h : w.Alike w') (fuel : Nat) (policy : Policy)
    (s : Settings) :
    GoAlike (w.format fuel policy s) (w'.format fuel policy s) := by
  refine h.after_order s fun hps hw => (hw.passes hps maxPasses {}).map
    fun w w' r hww => ⟨hww, ?_⟩
  simp only [hww.tree]

end Session

/-! ## Whatever engines are asked to do -/

/-- Something to ask of an engine. -/
inductive Job where
  | order (s : Settings) (recreate : Bool)
  | lint (fuel : Nat) (s : Settings) (t : Tree)
  | format (fuel : Nat) (policy : Policy) (s : Settings) (t : Tree)

/-- What a session leaves behind, the engine apart. -/
structure Remains where
  tree : Tree
  asked : List Asked
  notes : List Note
  survived : Bool

def Session.remains (w : Session σ) : Remains :=
  ⟨w.tree, w.asked, w.notes, w.survived⟩

/-- What there is to see of a job. -/
inductive Answer where
  | order (result : Except OrderError (List RuleId))
  | lint (remains : Remains) (result : Except EngineError Outcome)
  | format (remains : Remains) (result : Except EngineError Formatted)

namespace Engine

/-- Do a job, with the engine to go on with. -/
def perform (e : Engine σ) : Job → Option (Engine σ × Answer)
  | .order s recreate =>
    some ((e.order s recreate).1,
      .order ((e.order s recreate).2.map fun ps => ps.map fun p => p.id))
  | .lint fuel s t =>
    (Session.lint fuel s { engine := e, tree := t }).map fun p =>
      (p.1.engine, .lint p.1.remains p.2)
  | .format fuel policy s t =>
    (Session.format fuel policy s { engine := e, tree := t }).map fun p =>
      (p.1.engine, .format p.1.remains p.2)

/-- The answers to one job after the other, until one does not end. -/
def answers : Engine σ → List Job → List Answer
  | _, [] => []
  | e, job :: jobs =>
    match e.perform job with
    | none => []
    | some (e, answer) => answer :: e.answers jobs

variable {e e' : Engine σ}

theorem Alike.session (h : e.Alike e') (t : Tree) :
    Session.Alike { engine := e, tree := t } { engine := e', tree := t } :=
  ⟨h, rfl, rfl, rfl, rfl⟩

/-- Sessions that go alike leave alike engines and the same to see. -/
theorem answer_alike {α : Type} {x y : Option (Session σ × α)}
    (h : Session.GoAlike x y) (answer : Remains → α → Answer) :
    Option.Rel (fun p q => Engine.Alike p.1 q.1 ∧ p.2 = q.2)
      (x.map fun p => (p.1.engine, answer p.1.remains p.2))
      (y.map fun p => (p.1.engine, answer p.1.remains p.2)) := by
  cases h with
  | none => exact .none
  | some hpq =>
    obtain ⟨hw, hresult⟩ := hpq
    refine .some ⟨hw.engine, ?_⟩
    simp only [Session.remains, hw.tree, hw.asked, hw.notes,
      hw.survived, hresult]

/-- Alike engines do a job alike. -/
theorem Alike.perform (h : e.Alike e') (job : Job) :
    Option.Rel (fun p q => Engine.Alike p.1 q.1 ∧ p.2 = q.2) (e.perform job)
      (e'.perform job) := by
  cases job with
  | order s recreate =>
    obtain ⟨hengine, hresult⟩ := h.order s recreate
    have hids := hresult.map (S := Eq) fun ps ps' hps => Provider.ids_eq hps
    exact .some ⟨hengine, congrArg Answer.order hids.eq⟩
  | lint fuel s t => exact answer_alike ((h.session t).lint fuel s) Answer.lint
  | format fuel policy s t =>
    exact answer_alike ((h.session t).format fuel policy s) Answer.format

/-- Alike engines do all jobs alike. -/
theorem Alike.answers_eq (h : e.Alike e') (jobs : List Job) :
    e.answers jobs = e'.answers jobs := by
  induction jobs generalizing e e' with
  | nil => rfl
  | cons job jobs ih =>
    have hjob := h.perform job
    simp only [answers]
    generalize e.perform job = x at hjob ⊢
    generalize e'.perform job = y at hjob ⊢
    cases hjob with
    | none => rfl
    | some hpq => simp only [hpq.2, ih hpq.1]

end Engine

/-- **The order of registration does not matter.** Take rules that a
registry accepts, and others that differ from them in the order in which
they are given and in the order and number of the wishes of each. Then both
can be registered. The two registries have the same rules disabled under all
settings, and fresh engines with them answer alike whatever they are asked
to do, one job after the other: which rules run in which order, or why not,
and what linting and formatting find and do, on any file, under any settings
and any policy. Specification, §1 and §8. -/
theorem registration_order_irrelevant (ps ks qs : List (Provider σ))
    (hvalid : ∀ p ∈ ps, RuleId.isValid p.id = true)
    (htargets : ∀ p ∈ ps, ∀ target ∈ p.targets, RuleId.isValid target = true)
    (hdistinct : (ps.map fun p => p.id).Nodup)
    (hlike : List.Forall₂ Provider.Alike ps ks) (hperm : ks.Perm qs)
    (i j : RegistryId) :
    ∃ r r', Registry.ofProviders i ps = .ok r ∧
      Registry.ofProviders j qs = .ok r' ∧
      (∀ s, r.disabled s = r'.disabled s) ∧
      ∀ jobs, Engine.answers { registry := r } jobs =
        Engine.answers { registry := r' } jobs := by
  obtain ⟨r, r', hr, hr', halike⟩ :=
    Registry.ofProviders_alike ⟨hvalid, htargets, hdistinct⟩ hlike hperm i j
  refine ⟨r, r', hr, hr', halike.disabled_eq, fun jobs => ?_⟩
  have hengines : Engine.Alike { registry := r } { registry := r' } :=
    ⟨halike, rfl, OrderCache.faithful_empty r, OrderCache.faithful_empty r'⟩
  exact hengines.answers_eq jobs

/-- A rule that gives the first token another text, and does not report
it. -/
def writer : Provider Unit := .ofVisitor { id := "x:b" } fun _ =>
  { memory := ()
    before := fun n _ =>
      if n = 1 then .perform (.replaceText 1 "written") fun _ => .finish ()
      else .finish () }

/-- A late rule that reports the first token if the rule above was there
before. -/
def reader (modifiers : List Modifier) : Provider Unit :=
  .ofVisitor { id := "x:a", modifiers } fun _ =>
    { memory := ()
      before := fun n _ => .inspect fun t =>
        if n = 1 && t.tokenText? 1 == some "written" then
          .emit 0 "was written" false fun _ => .finish ()
        else .finish () }

/-- Two rules registered the other way round, one of which says its wishes
in another order and one of them twice. Both registries have the writer
before the reader, and so both report the token. -/
theorem registration_order_irrelevant_reversed :
    let a := reader [.runAfter "x:b" .regardless, .late]
    let a' := reader [.late, .runAfter "x:b" .regardless, .late]
    let t := Tree.build .file [.token .identifier "new"]
    ∃ r r', Registry.ofProviders 0 [a, writer] = .ok r ∧
      Registry.ofProviders 1 [writer, a'] = .ok r' ∧
      (∀ s, r.disabled s = r'.disabled s) ∧
      (∀ jobs, Engine.answers { registry := r } jobs =
        Engine.answers { registry := r' } jobs) ∧
      ((Engine.order { registry := r' } {} false).2.toOption.map fun order =>
        order.map fun p => p.id) = some ["x:b", "x:a"] ∧
      (Session.lint 20 {} { engine := { registry := r' }, tree := t }).map
          (fun p => (p.1.tree.toText, p.2.toOption.map fun o =>
            o.violations.map fun v => (v.rule, v.message))) =
        some ("written", some [("x:a", "was written")]) := by
  intro a a' t
  have hwishes : ∀ m, m ∈ a.modifiers ↔ m ∈ a'.modifiers := by
    intro m
    simp only [a, a', reader, Provider.ofVisitor, List.mem_cons,
      List.not_mem_nil]
    tauto
  obtain ⟨r, r', hr, hr', hdisabled, hanswers⟩ :=
    registration_order_irrelevant [a, writer] [a', writer] [writer, a']
      (by decide) (by decide) (by decide)
      (.cons ⟨⟨rfl, hwishes, rfl, rfl, rfl⟩, rfl⟩
        (.cons ⟨⟨rfl, fun _ => Iff.rfl, rfl, rfl, rfl⟩, rfl⟩ .nil))
      (.swap _ _ _) 0 1
  -- `r'` is known only through the theorem, so the values are computed from
  -- what the registration returns.
  have horder : ((Registry.ofProviders 1 [writer, a']).toOption.map fun r' =>
      (Engine.order { registry := r' } {} false).2.toOption.map fun order =>
        order.map fun p => p.id) = some (some ["x:b", "x:a"]) := by
    decide +kernel
  have hlint : ((Registry.ofProviders 1 [writer, a']).toOption.map fun r' =>
      (Session.lint 20 {} { engine := { registry := r' }, tree := t }).map
        fun p => (p.1.tree.toText, p.2.toOption.map fun o =>
          o.violations.map fun v => (v.rule, v.message))) =
      some (some ("written", some [("x:a", "was written")])) := by
    decide +kernel
  rw [hr'] at horder hlint
  exact ⟨r, r', hr, hr', hdisabled, hanswers, Option.some.inj horder,
    Option.some.inj hlint⟩

end TreeLint
