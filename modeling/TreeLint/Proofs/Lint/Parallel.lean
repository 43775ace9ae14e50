import TreeLint.Lint.Batch
import TreeLint.Proofs.Lint.Reformat
import TreeLint.Proofs.Lint.Registration
import Mathlib.Logic.Relation

/-!
# Files linted side by side

Workers share an engine. A worker takes a file, finds out which rules run,
which it may read from what other workers have worked out, visits the file
with rules made for it alone, and reports the outcome with the index of the
file. The steps of different workers are interleaved in any way
(`Pool.Step`), and the reports arrive in any order.

If it does not matter to the rules how often they were made, none of that
shows. A file gets the outcome that it has when it is linted on its own by
an engine that has done nothing else (`Batch.alone`), and the results stand
in the order of the files (`parallel_lint_as_alone`).

Specification, §5: the cache of orders is shared, and trees are owned by one
worker each. §14: results come in the order of the files.
-/

namespace TreeLint

variable {σ : Type}

/-! ## Which rules run -/

/-- The rules of a registry that run under some settings, in the order they
run. -/
def Registry.order (r : Registry σ) (s : Settings) :
    Except OrderError (List (Provider σ)) :=
  (RuleInfo.sort r.infos (r.disabled s)).map fun infos =>
    infos.filterMap fun i => r.find? i.id

/-- An engine that can be used for the files of a batch: it knows the rules
of a registry, and what it remembers about their order is right. -/
structure Engine.Serves (e : Engine σ) (r : Registry σ) : Prop where
  registry : e.registry = r
  faithful : e.cache.Faithful r

theorem Engine.serves_fresh (r : Registry σ) :
    Engine.Serves { registry := r } r :=
  ⟨rfl, OrderCache.faithful_empty r⟩

/-- Every engine that serves finds the same order, and serves afterwards. -/
theorem Engine.Serves.order {e : Engine σ} {r : Registry σ} (h : e.Serves r)
    (s : Settings) :
    (e.order s false).2 = r.order s ∧ (e.order s false).1.Serves r := by
  obtain ⟨rfl, hcache⟩ := h
  obtain ⟨hcache', hresult⟩ := hcache.resolve s false
  refine ⟨?_, rfl, hcache'⟩
  simp only [Engine.order, Registry.order, hresult]

/-- Only registered rules run. -/
theorem Registry.mem_of_order {r : Registry σ} {s : Settings}
    {ps : List (Provider σ)} (h : r.order s = .ok ps) {p : Provider σ}
    (hp : p ∈ ps) : p ∈ r.providers.values := by
  unfold Registry.order at h
  cases hsort : RuleInfo.sort r.infos (r.disabled s) with
  | error e => simp [hsort, Except.map] at h
  | ok infos =>
    simp only [hsort, Except.map, Except.ok.injEq] at h
    rw [← h, List.mem_filterMap] at hp
    obtain ⟨i, -, hi⟩ := hp
    exact NameMap.mem_of_find? hi

namespace Session

variable {w w' : Session σ} {s : Settings} {ps : List (Provider σ)} {fuel : Nat}
  {policy : Policy}

/-- What a visit of a file finds is a matter of the file, if it does not
matter how often rules were made. -/
theorem outcome_pass (hps : ∀ p ∈ ps, p.Stateless) (htree : w.tree = w'.tree)
    (hasked : w.asked = w'.asked) :
    (w.pass fuel policy s ps).map Prod.snd =
      (w'.pass fuel policy s ps).map Prod.snd := by
  have hroster := Assembly.roster_build (s := s) hps {} w.engine.made
    w'.engine.made [] [] false false
  simp only [pass, assemble, hroster]
  cases (Assembly.build s ps {} w'.engine.made [] false).roster with
  | error e => rfl
  | ok roster =>
    simp only [Except.mapError, visit, htree, hasked, Option.map_map]
    rfl

/-- Linting is asking which rules run and visiting the file with them. -/
theorem lint_eq (w : Session σ) : w.lint fuel s =
    match (w.engine.order s false).2 with
    | .error e =>
      some ({ w with engine := (w.engine.order s false).1 }, .error (.order e))
    | .ok ps =>
      pass fuel Policy.none s ps
        { w with engine := (w.engine.order s false).1 } := by
  simp only [lint, order]
  cases (w.engine.order s false).2 <;> rfl

end Session

/-! ## A file on its own -/

namespace Batch

variable {fuel : Nat} {r : Registry σ} {file : SourceFile} {e : Engine σ}
  {o : Except EngineError Outcome}

/-- What linting a file gives on its own, by an engine that has done nothing
else. -/
def alone (fuel : Nat) (r : Registry σ) (file : SourceFile) :
    Option (Except EngineError Outcome) :=
  (Session.lint fuel file.settings { engine := { registry := r },
                                     tree := file.tree }).map Prod.snd

/-- What a visit of the file by some rules gives on its own. -/
def visitAlone (fuel : Nat) (file : SourceFile) (r : Registry σ)
    (ps : List (Provider σ)) :
    Option (Except EngineError Outcome) :=
  (Session.pass fuel Policy.none file.settings ps { engine := { registry := r },
                                                    tree := file.tree }).map
                                                    Prod.snd

theorem visitAlone_eq {ps : List (Provider σ)} (hps : ∀ p ∈ ps, p.Stateless)
    (e : Engine σ) :
    (Session.pass fuel Policy.none file.settings ps
      { engine := e, tree := file.tree }).map Prod.snd =
      visitAlone fuel file r ps :=
  Session.outcome_pass hps rfl rfl

/-- A file on its own, by the order of the rules. -/
theorem alone_eq (hr : ∀ p ∈ r.providers.values, p.Stateless) :
    alone fuel r file =
    match r.order file.settings with
    | .error e => some (.error (.order e))
    | .ok ps => visitAlone fuel file r ps := by
  simp only [alone, Session.lint_eq,
    ((Engine.serves_fresh r).order file.settings).1]
  cases horder : r.order file.settings with
  | error e => rfl
  | ok ps =>
    exact visitAlone_eq (fun p hp => hr p (Registry.mem_of_order horder hp)) _

/-- Nobody is lost when a file is linted on its own. -/
theorem alone_ne_workerLost (hr : ∀ p ∈ r.providers.values, p.Stateless)
    (h : alone fuel r file = some o) (name : String) :
    o ≠ .error (.workerLost name) := by
  rintro rfl
  rw [alone_eq hr] at h
  cases horder : r.order file.settings with
  | error e => simp [horder] at h
  | ok ps =>
    simp only [horder, visitAlone, Session.pass, Session.assemble] at h
    cases hroster : (Assembly.build file.settings ps {}
        (Engine.made { registry := r }) [] false).roster with
    | error e => simp [hroster, Except.mapError] at h
    | ok roster => simp [hroster, Except.mapError] at h

/-! ## The pool -/

/-- How far the work on a file has come. -/
inductive Stage (σ : Type) where
  /-- No worker has taken it. -/
  | waiting
  /-- A worker has found out which rules run, or why they cannot. -/
  | ordered (result : Except OrderError (List (Provider σ)))
  /-- A worker has an outcome to report. -/
  | linted (outcome : Except EngineError Outcome)
  | reported

/-- Whether a worker is at it. -/
def Stage.busy : Stage σ → Bool
  | .ordered _ | .linted _ => true
  | .waiting | .reported => false

/-- Workers that share an engine, the stage of every file, and what has
arrived. -/
structure Pool (σ : Type) where
  engine : Engine σ
  stages : List (Stage σ)
  arrivals : List Arrival := []

namespace Pool

/-- No file is taken yet. -/
def start (e : Engine σ) (files : List SourceFile) : Pool σ :=
  { engine := e, stages := files.map fun _ => .waiting }

/-- Everything was reported. -/
def Complete (pool : Pool σ) : Prop := ∀ stage ∈ pool.stages, stage = .reported

/-- One step of one worker. Looking up the order of the rules is one access
to what the engine remembers. How many instances of each rule were made when
a worker makes its own is left open, because the others make theirs
meanwhile. -/
inductive Step (fuel workers : Nat) (files : List SourceFile) :
    Pool σ → Pool σ → Prop
  | take {pool : Pool σ} {i : Nat} {file : SourceFile}
      (hfile : files[i]? = some file)
      (hstage : pool.stages[i]? = some .waiting)
      (hfree : pool.stages.countP Stage.busy < workers) :
      Step fuel workers files pool
        { pool with
          engine := (pool.engine.order file.settings false).1
          stages := pool.stages.set i
            (.ordered (pool.engine.order file.settings false).2) }
  | giveUp {pool : Pool σ} {i : Nat} {e : OrderError}
      (hstage : pool.stages[i]? = some (.ordered (.error e))) :
      Step fuel workers files pool
        { pool with stages := pool.stages.set i (.linted (.error (.order e))) }
  | visit {pool : Pool σ} {i : Nat} {file : SourceFile}
      {ps : List (Provider σ)} {made : MadeCounts} {w : Session σ}
      {outcome : Except EngineError Outcome} (hfile : files[i]? = some file)
      (hstage : pool.stages[i]? = some (.ordered (.ok ps)))
      (hpass : Session.pass fuel Policy.none file.settings ps
        { engine := { pool.engine with made }, tree := file.tree } =
        some (w, outcome)) :
      Step fuel workers files pool
        { pool with stages := pool.stages.set i (.linted outcome) }
  | report {pool : Pool σ} {i : Nat} {outcome : Except EngineError Outcome}
      (hstage : pool.stages[i]? = some (.linted outcome)) :
      Step fuel workers files pool
        { pool with
          stages := pool.stages.set i .reported,
          arrivals := pool.arrivals ++ [(i, outcome)] }

/-- Any number of steps of any of the workers. -/
def Run (fuel workers : Nat) (files : List SourceFile) :
    Pool σ → Pool σ → Prop :=
  Relation.ReflTransGen (Step fuel workers files)

/-- What is known about a file at a stage is what is so when it is linted on
its own. -/
def Right (fuel : Nat) (r : Registry σ) (arrivals : List Arrival) (i : Nat)
    (file : SourceFile) : Stage σ → Prop
  | .waiting => True
  | .ordered result => result = r.order file.settings
  | .linted outcome => alone fuel r file = some outcome
  | .reported => ∃ outcome, (i, outcome) ∈ arrivals

/-- What holds of a pool while the workers are at it. -/
structure Sound (fuel : Nat) (r : Registry σ) (files : List SourceFile)
    (pool : Pool σ) : Prop where
  serves : pool.engine.Serves r
  length : pool.stages.length = files.length
  right : ∀ i file stage, files[i]? = some file → pool.stages[i]? = some stage →
    Right fuel r pool.arrivals i file stage
  arrived : ∀ a ∈ pool.arrivals, ∃ file, files[a.1]? = some file ∧
    alone fuel r file = some a.2

variable {workers : Nat} {files : List SourceFile} {pool pool' : Pool σ}
  {i : Nat}

/-- Before the first step nothing is known, so nothing known is wrong. -/
theorem sound_start (he : e.Serves r) (files : List SourceFile) :
    (start e files).Sound fuel r files where
  serves := he
  length := by simp [start]
  right i file stage _ hstage := by
    simp only [start, List.getElem?_map, Option.map_eq_some_iff] at hstage
    obtain ⟨-, -, rfl⟩ := hstage
    trivial
  arrived a ha := nomatch ha

/-- What is right stays right when more arrives. -/
theorem Right.mono {arrivals more : List Arrival} (hmore : arrivals ⊆ more)
    {stage : Stage σ} (h : Right fuel r arrivals i file stage) :
    Right fuel r more i file stage := by
  cases stage with
  | waiting => trivial
  | ordered result => exact h
  | linted outcome => exact h
  | reported =>
    obtain ⟨outcome, hmem⟩ := h
    exact ⟨outcome, hmore hmem⟩

/-- A step at one file leaves the other files alone. -/
theorem right_set {arrivals : List Arrival} {stage : Stage σ}
    (h : pool.Sound fuel r files) (hmore : pool.arrivals ⊆ arrivals)
    (hnew : ∀ file, files[i]? = some file →
      Right fuel r arrivals i file stage) :
    ∀ j file stage', files[j]? = some file → (pool.stages.set i stage)[j]? =
      some stage' →
      Right fuel r arrivals j file stage' := by
  intro j file stage' hfile hstage
  rw [List.getElem?_set] at hstage
  split at hstage
  · next hij =>
    split at hstage
    · cases hstage
      exact hij ▸ hnew file (hij ▸ hfile)
    · cases hstage
  · exact (h.right j file stage' hfile hstage).mono hmore

/-- **Step.** Whatever a worker does next, what is known about the files
stays right. -/
theorem Sound.step (hr : ∀ p ∈ r.providers.values, p.Stateless)
    (h : pool.Sound fuel r files) (hstep : Step fuel workers files pool pool') :
    pool'.Sound fuel r files := by
  -- One case for each step of a worker. The stage of one file changes, and
  -- what the new stage says has to be right.
  cases hstep with
  | @take i file hfile hstage _ =>
    obtain ⟨horder, hserves⟩ := h.serves.order file.settings
    refine ⟨hserves, by simp [h.length], right_set h (List.Subset.refl _)
      fun file' hfile' => ?_, h.arrived⟩
    cases hfile.symm.trans hfile'
    exact horder
  | @giveUp i e hstage =>
    refine ⟨h.serves, by simp [h.length], right_set h (List.Subset.refl _)
      fun file hfile => ?_, h.arrived⟩
    have horder : .error e = r.order file.settings :=
      h.right i file _ hfile hstage
    show alone fuel r file = some (.error (.order e))
    rw [alone_eq hr, ← horder]
  | @visit i file ps made w outcome hfile hstage hpass =>
    refine ⟨h.serves, by simp [h.length], right_set h (List.Subset.refl _)
      fun file' hfile' => ?_, h.arrived⟩
    cases hfile.symm.trans hfile'
    have horder : .ok ps = r.order file.settings :=
      h.right i file _ hfile hstage
    have hps : ∀ p ∈ ps, p.Stateless := fun p hp =>
      hr p (Registry.mem_of_order horder.symm hp)
    show alone fuel r file = some outcome
    rw [alone_eq hr, ← horder]
    show visitAlone fuel file r ps = some outcome
    -- The instances made by others do not show, since the rules are
    -- stateless.
    rw [← visitAlone_eq hps { pool.engine with made }, hpass]
    rfl
  | @report i outcome hstage =>
    have hlt : i < files.length := by
      rw [← h.length]
      exact (List.getElem?_eq_some_iff.mp hstage).1
    have halone : alone fuel r files[i] = some outcome :=
      h.right i files[i] _ (List.getElem?_eq_getElem hlt) hstage
    refine ⟨h.serves, by simp [h.length],
      right_set h (List.subset_append_left _ _) fun file _ => ?_, ?_⟩
    · exact ⟨outcome, by simp⟩
    · intro a ha
      rcases List.mem_append.mp ha with ha | ha
      · exact h.arrived a ha
      · cases List.mem_singleton.mp ha
        exact ⟨files[i], List.getElem?_eq_getElem hlt, halone⟩

/-- **Run.** The same of any number of steps. -/
theorem Sound.run (hr : ∀ p ∈ r.providers.values, p.Stateless)
    (h : pool.Sound fuel r files) (hrun : Run fuel workers files pool pool') :
    pool'.Sound fuel r files := by
  induction hrun with
  | refl => exact h
  | tail _ hstep ih => exact ih.step hr hstep

/-! ## Nothing keeps a batch from being completed -/

/-- A worker that knows the outcome can report it. -/
theorem exists_report (fuel workers : Nat) (files : List SourceFile)
    (pool : Pool σ) (hstage : pool.stages[i]? = some (.linted o)) :
    ∃ pool', Run fuel workers files pool pool' ∧
      pool'.stages = pool.stages.set i .reported :=
  ⟨_, .single (.report hstage), rfl⟩

/-- A worker that knows the order of the rules can get on to the report, if
linting the file ends. -/
theorem exists_visit (workers : Nat) (pool : Pool σ)
    (hr : ∀ p ∈ r.providers.values, p.Stateless) (hfile : files[i]? = some file)
    (hstage : pool.stages[i]? = some (.ordered (r.order file.settings)))
    (halone : alone fuel r file = some o) :
    ∃ pool', Run fuel workers files pool pool' ∧
      pool'.stages = pool.stages.set i .reported := by
  have hlt : i < pool.stages.length := (List.getElem?_eq_some_iff.mp hstage).1
  have hset : ∀ stage : Stage σ, (pool.stages.set i stage)[i]? = some stage :=
    fun stage => by simp [hlt]
  -- once the file is linted only the report is left
  have hfinish : ∀ outcome, Step fuel workers files pool
      { pool with stages := pool.stages.set i (.linted outcome) } →
      ∃ pool', Run fuel workers files pool pool' ∧
          pool'.stages = pool.stages.set i .reported := by
    intro outcome hstep
    obtain ⟨pool', hrun, hstages⟩ := exists_report fuel workers files
      { pool with stages := pool.stages.set i (.linted outcome) }
        (hset (.linted outcome))
    exact ⟨pool', (Relation.ReflTransGen.single hstep).trans
      hrun, by rw [hstages, List.set_set]⟩
  rw [alone_eq hr] at halone
  cases horder : r.order file.settings with
  | error e =>
    rw [horder] at hstage
    exact hfinish _ (.giveUp hstage)
  | ok ps =>
    rw [horder] at hstage halone
    have hps : ∀ p ∈ ps, p.Stateless := fun p hp =>
      hr p (Registry.mem_of_order horder hp)
    have hpass := (visitAlone_eq (r := r) hps
      { pool.engine with made := [] }).trans halone
    obtain ⟨⟨w, outcome⟩, hvisit, -⟩ := Option.map_eq_some_iff.mp hpass
    exact hfinish outcome (.visit hfile hstage hvisit)

/-- A worker that is free can deal with a file that is waiting, from
beginning to end. -/
theorem exists_turn (hr : ∀ p ∈ r.providers.values, p.Stateless)
    (h : pool.Sound fuel r files) (hfile : files[i]? = some file)
    (hstage : pool.stages[i]? = some .waiting)
    (hfree : pool.stages.countP Stage.busy < workers)
    (halone : alone fuel r file = some o) :
    ∃ pool', Run fuel workers files pool pool' ∧
      pool'.stages = pool.stages.set i .reported := by
  have hlt : i < pool.stages.length := (List.getElem?_eq_some_iff.mp hstage).1
  have htake := @Step.take σ fuel workers files pool i file hfile hstage hfree
  rw [(h.serves.order file.settings).1] at htake
  obtain ⟨pool', hrun, hstages⟩ := exists_visit workers
    { pool with
      engine := (pool.engine.order file.settings false).1
      stages := pool.stages.set i (.ordered (r.order file.settings)) } hr hfile
        (by simp [hlt]) halone
  exact ⟨pool', (Relation.ReflTransGen.single htake).trans
    hrun, by rw [hstages, List.set_set]⟩

/-- One worker is enough to complete a batch: it takes one file after the
other. -/
theorem exists_complete (hr : ∀ p ∈ r.providers.values, p.Stateless)
    (he : e.Serves r) {workers : Nat} (hworkers : 0 < workers)
    (hends : ∀ file ∈ files, ∃ o, alone fuel r file = some o) :
    ∃ pool, Run fuel workers files (start e files) pool ∧ pool.Complete := by
  -- One worker is enough: the files are done one after the other, each from
  -- start to report.
  have hfirst : ∀ n ≤ files.length, ∃ pool,
      Run fuel workers files (start e files) pool ∧
      pool.stages = List.replicate n .reported ++ List.replicate
          (files.length - n) .waiting := by
    intro n hn
    induction n with
    | zero => exact ⟨start e files, .refl, by simp [start]⟩
    | succ n ih =>
      obtain ⟨pool, hrun, hstages⟩ := ih (by omega)
      have hfile : files[n]? = some files[n] := List.getElem?_eq_getElem hn
      obtain ⟨o, halone⟩ := hends files[n] (List.getElem_mem hn)
      have hleft : files.length - n = (files.length - (n + 1)) + 1 := by omega
      have hidle : pool.stages.countP Stage.busy = 0 := by
        rw [hstages, List.countP_append, List.countP_replicate,
          List.countP_replicate]
        rfl
      have hwaiting : pool.stages[n]? = some .waiting := by
        rw [hstages, hleft, List.replicate_succ]
        simp
      obtain ⟨pool', hturn, hstages'⟩ :=
        exists_turn hr ((sound_start he files).run hr hrun) hfile hwaiting
        (hidle ▸ hworkers) halone
      refine ⟨pool', hrun.trans hturn, ?_⟩
      rw [hstages', hstages, hleft, List.replicate_succ,
        List.set_append_right _ _ (by simp),
        List.replicate_succ']
      simp
  obtain ⟨pool, hrun, hstages⟩ := hfirst files.length le_rfl
  refine ⟨pool, hrun, fun stage hstage => ?_⟩
  rw [hstages, Nat.sub_self, List.replicate_zero, List.append_nil] at hstage
  exact List.eq_of_mem_replicate hstage

end Pool

/-! ## The results in the order of the files -/

/-- Results as if every file had been linted on its own: as many as there
are files, in their order, each with the name of its file and the outcome
that this file has on its own. -/
def AsAlone (fuel : Nat) (r : Registry σ) (files : List SourceFile)
    (results : List FileResult) : Prop :=
  List.Forall₂ (fun file result => result.name = file.name ∧
    alone fuel r file = some result.outcome) files results

/-- There is only one such list. -/
theorem AsAlone.unique {files : List SourceFile}
    {results results' : List FileResult} (h : AsAlone fuel r files results)
    (h' : AsAlone fuel r files results') : results = results' := by
  induction h generalizing results' with
  | nil =>
    cases h'
    rfl
  | @cons file result _ _ hresult _ ih =>
    cases h' with
    | @cons _ result' _ _ hresult' hrest' =>
      obtain ⟨name, outcome⟩ := result
      obtain ⟨name', outcome'⟩ := result'
      obtain ⟨rfl, hout⟩ := hresult
      obtain ⟨rfl, hout'⟩ := hresult'
      cases hout.symm.trans hout'
      rw [ih hrest']

/-- Every result is that of some file, linted alone. -/
theorem AsAlone.exists_file {files : List SourceFile}
    {results : List FileResult} {result : FileResult}
    (h : AsAlone fuel r files results) (hresult : result ∈ results) :
    ∃ file ∈ files, alone fuel r file = some result.outcome := by
  induction h with
  | nil => cases hresult
  | cons hfirst _ ih =>
    rcases List.mem_cons.mp hresult with rfl | hresult
    · exact ⟨_, List.mem_cons_self, hfirst.2⟩
    · obtain ⟨file, hfile, halone⟩ := ih hresult
      exact ⟨file, List.mem_cons_of_mem _ hfile, halone⟩

/-- Reports about files by their indices, the first of which is `start`:
each is right, and there is one for every file. More than one about a file
would do no harm. -/
structure Delivered (fuel : Nat) (r : Registry σ) (files : List SourceFile)
    (start : Nat) (arrivals : List Arrival) : Prop where
  right : ∀ a ∈ arrivals, ∃ i file, a.1 = start + i ∧ files[i]? = some file ∧
    alone fuel r file = some a.2
  all : ∀ i < files.length, ∃ outcome, (start + i, outcome) ∈ arrivals

theorem Delivered.perm {files : List SourceFile} {start : Nat}
    {arrivals arrivals' : List Arrival}
    (h : Delivered fuel r files start arrivals)
    (hperm : arrivals'.Perm arrivals) :
    Delivered fuel r files start arrivals' where
  right a ha := h.right a (hperm.mem_iff.mp ha)
  all i hi := by
    obtain ⟨outcome, hmem⟩ := h.all i hi
    exact ⟨outcome, hperm.mem_iff.mpr hmem⟩

/-- The result for a file is what any of the reports about it says. -/
theorem Delivered.resultOf {files : List SourceFile} {arrivals : List Arrival}
    (h : Delivered fuel r files 0 arrivals) {i : Nat}
    (hfile : files[i]? = some file) (name : String) :
    ∃ o, Batch.resultOf arrivals i name = ⟨name, o⟩ ∧
      alone fuel r file = some o := by
  obtain ⟨outcome, hmem⟩ := h.all i (List.getElem?_eq_some_iff.mp hfile).1
  rw [Nat.zero_add] at hmem
  have hsome : (arrivals.reverse.find? fun a => a.1 == i).isSome = true :=
    List.find?_isSome.mpr ⟨(i, outcome), List.mem_reverse.mpr hmem, by simp⟩
  obtain ⟨⟨j, o⟩, hfound⟩ := Option.isSome_iff_exists.mp hsome
  have hj : j = i := by simpa using List.find?_some hfound
  subst hj
  obtain ⟨k, file', hk, hfile', halone⟩ :=
    h.right _ (List.mem_reverse.mp (List.mem_of_find?_eq_some hfound))
  obtain rfl : j = k := by simpa using hk
  cases hfile.symm.trans hfile'
  exact ⟨o, by simp only [Batch.resultOf, hfound], halone⟩

/-- Right reports are put together to the right results, whatever the files
are called. -/
theorem Delivered.collect {files : List SourceFile} {arrivals : List Arrival}
    (h : Delivered fuel r files 0 arrivals) :
    AsAlone fuel r files (Batch.collect (files.map SourceFile.name)
      arrivals) := by
  refine List.forall₂_iff_get.mpr ⟨by simp [Batch.collect], fun i hi hi' => ?_⟩
  have hfile : files[i]? = some files[i] := List.getElem?_eq_getElem hi
  obtain ⟨o, hresult, halone⟩ := h.resultOf hfile files[i].name
  simp only [Batch.collect, List.get_eq_getElem, List.getElem_mapIdx,
    List.getElem_map, hresult, true_and]
  exact halone

/-- When all are done every file has arrived with the right result. -/
theorem Pool.Sound.delivered {files : List SourceFile} {pool : Pool σ}
    (h : pool.Sound fuel r files) (hcomplete : pool.Complete) :
    Delivered fuel r files 0 pool.arrivals where
  right a ha := by
    obtain ⟨file, hfile, halone⟩ := h.arrived a ha
    exact ⟨a.1, file, (Nat.zero_add _).symm, hfile, halone⟩
  all i hi := by
    have hlt : i < pool.stages.length := h.length ▸ hi
    have hstage : pool.stages[i]? = some .reported := by
      rw [List.getElem?_eq_getElem hlt, hcomplete _ (List.getElem_mem hlt)]
    obtain ⟨outcome, hmem⟩ :=
      h.right i files[i] _ (List.getElem?_eq_getElem hi) hstage
    exact ⟨outcome, by rwa [Nat.zero_add]⟩

/-! ## One file after the other -/

/-- No instance of the rule is fragile, so that whoever works with it lives
to report. -/
def Sturdy (p : Provider σ) : Prop :=
  ∀ number inst, p.create number = .made inst → inst.fragile = false

/-- If no instance is fragile, dropping what was made breaks nothing. -/
theorem fragile_build {s : Settings} {ps : List (Provider σ)}
    (hps : ∀ p ∈ ps, Sturdy p) (roster : Roster σ) (made : MadeCounts)
    (notes : List Note) :
    (Assembly.build s ps roster made notes false).fragile = false := by
  induction ps generalizing roster made notes with
  | nil => rfl
  | cons p ps ih =>
    obtain ⟨hp, hps⟩ := List.forall_mem_cons.mp hps
    simp only [Assembly.build]
    split
    · rfl
    · rfl
    · next inst hmade =>
      simp only [hp _ inst hmade, Bool.or_false, Bool.false_eq_true, if_false]
      split
      · exact ih hps ..
      · exact ih hps ..

/-- Linting a file with an engine that serves: the outcome is that of the
file on its own, the engine serves on, and the worker lives. -/
theorem work_eq (hr : ∀ p ∈ r.providers.values, p.Stateless ∧ Sturdy p)
    (he : e.Serves r) (halone : alone fuel r file = some o) :
    ∃ e' notes, work fuel file e = some (e', notes, some o) ∧ e'.Serves r := by
  have hstateless : ∀ p ∈ r.providers.values, p.Stateless :=
    fun p hp => (hr p hp).1
  obtain ⟨horder, hserves⟩ := he.order file.settings
  simp only [work, Session.lint_eq, horder]
  rw [alone_eq hstateless] at halone
  cases hresult : r.order file.settings with
  | error error =>
    simp only [hresult, Option.some.injEq] at halone
    exact ⟨(e.order file.settings false).1, [], by simp [halone], hserves⟩
  | ok ps =>
    have hps : ∀ p ∈ ps, p.Stateless ∧ Sturdy p := fun p hp =>
      hr p (Registry.mem_of_order hresult hp)
    simp only [hresult] at halone
    have hpass := (visitAlone_eq (r := r) (fun p hp => (hps p hp).1)
      (e.order file.settings false).1).trans halone
    obtain ⟨⟨w, outcome⟩, hvisit, rfl⟩ := Option.map_eq_some_iff.mp hpass
    obtain ⟨hregistry, hcache⟩ := Session.engine_pass hvisit
    -- The worker lives: no instance is fragile, so dropping them breaks
    -- nothing.
    have hsurvived : w.survived = true := by
      have hfragile := fragile_build (s := file.settings) (fun p hp =>
        (hps p hp).2) {}
        (e.order file.settings false).1.made []
      simp only [Session.pass, Session.assemble, hfragile] at hvisit
      cases hroster : (Assembly.build file.settings ps {}
          (e.order file.settings false).1.made [] false).roster with
      | error error =>
        simp only [hroster, Except.mapError, Option.some.injEq, Prod.mk.injEq]
          at hvisit
        exact congrArg Session.survived hvisit.1.symm
      | ok roster =>
        simp only [hroster, Except.mapError, Session.visit, Option.map_map,
          Option.map_eq_some_iff,
          Function.comp_apply, Prod.mk.injEq] at hvisit
        obtain ⟨v, -, hw, -⟩ := hvisit
        exact congrArg Session.survived hw.symm
    refine ⟨w.engine, w.notes, ?_,
      ⟨hregistry.trans hserves.registry, hcache ▸ hserves.faithful⟩⟩
    simp only [hvisit, Option.map_some, hsurvived, if_true]

/-- Files linted in turn are all reported on, and rightly. -/
theorem run_delivered (hr : ∀ p ∈ r.providers.values, p.Stateless ∧ Sturdy p)
    (he : e.Serves r) (start : Nat) {files : List SourceFile}
    (hends : ∀ file ∈ files, ∃ o, alone fuel r file = some o) :
    ∃ e' notes arrivals, run fuel start files e = some (e', notes, arrivals) ∧
      Delivered fuel r files start arrivals := by
  induction files generalizing e start with
  | nil => exact ⟨e, [], [], rfl, ⟨by simp, by simp⟩⟩
  | cons file files ih =>
    obtain ⟨⟨o, halone⟩, hends⟩ := List.forall_mem_cons.mp hends
    obtain ⟨e₁, notes, hwork, he₁⟩ := work_eq hr he halone
    obtain ⟨e₂, more, arrivals, hrun, hdelivered⟩ := ih he₁ (start + 1) hends
    refine ⟨e₂, notes ++ more, (start, o) :: arrivals, ?_, ⟨?_, ?_⟩⟩
    · simp only [run, hwork, hrun]
      rfl
    · intro a ha
      rcases List.mem_cons.mp ha with rfl | ha
      · exact ⟨0, file, rfl, rfl, halone⟩
      · obtain ⟨i, file', hi, hfile', hout⟩ := hdelivered.right a ha
        exact ⟨i + 1, file', by omega, hfile', hout⟩
    · intro i hi
      cases i with
      | zero => exact ⟨o, List.mem_cons_self⟩
      | succ i =>
        obtain ⟨outcome, hmem⟩ := hdelivered.all i (by simpa using hi)
        exact ⟨outcome, List.mem_cons_of_mem _
          (by rwa [Nat.add_assoc, Nat.add_comm 1] at hmem)⟩

end Batch

/-- **Linting files side by side gives what linting each on its own gives.**
Take rules to which it does not matter how often they were made, and any
files. Whenever workers, however many, have completed the files, whatever
engine with these rules they share, whatever it remembers, and however their
steps were interleaved, the reports, in whatever order they arrive, are put
together to the outcomes of the files on their own, in the order of the
files, also if names are the same. If linting each file ends, there is just
one such list, nobody is lost in it, the workers can always complete the
files, and if they live to report that list is what linting the files in
turn gives. Specification, §5 and §14. -/
theorem parallel_lint_as_alone (r : Registry σ)
    (hr : ∀ p ∈ r.providers.values, p.Stateless) (fuel : Nat)
    (files : List SourceFile) :
    (∀ (e : Engine σ) workers pool arrivals, e.registry = r →
      e.cache.Faithful r →
        Batch.Pool.Run fuel workers files (.start e files) pool →
          pool.Complete →
        arrivals.Perm pool.arrivals →
        Batch.AsAlone fuel r files
          (Batch.collect (files.map SourceFile.name) arrivals)) ∧
      ((∀ file ∈ files, ∃ outcome, Batch.alone fuel r file = some outcome) →
        ∃ results, Batch.AsAlone fuel r files results ∧
          (∀ results', Batch.AsAlone fuel r files results' →
            results' = results) ∧
          (∀ result ∈ results, ∀ name, result.outcome ≠
            .error (.workerLost name)) ∧
          ∀ (e : Engine σ), e.registry = r → e.cache.Faithful r →
            (∀ workers, 0 < workers → ∃ pool,
              Batch.Pool.Run fuel workers files (.start e files) pool ∧
              pool.Complete) ∧
            ((∀ p ∈ r.providers.values, Batch.Sturdy p) →
              ∃ e' notes, Batch.lint fuel files e =
                some (e', notes, results))) := by
  constructor
  · intro e workers pool arrivals hregistry hcache hrun hcomplete hperm
    have hsound :=
      (Batch.Pool.sound_start ⟨hregistry, hcache⟩ files).run hr hrun
    exact ((hsound.delivered hcomplete).perm hperm).collect
  · intro hends
    -- Some run completes the files, and what it delivers is the list.
    obtain ⟨pool, hrun, hcomplete⟩ :=
      Batch.Pool.exists_complete hr (Engine.serves_fresh r) Nat.one_pos hends
    have hsound :=
      (Batch.Pool.sound_start (Engine.serves_fresh r) files).run hr hrun
    have hresults := (hsound.delivered hcomplete).collect
    refine ⟨_, hresults, fun results' h' => h'.unique hresults,
      fun result hresult name => ?_, ?_⟩
    · obtain ⟨file, -, halone⟩ := hresults.exists_file hresult
      exact Batch.alone_ne_workerLost hr halone name
    · intro e hregistry hcache
      refine ⟨fun workers hworkers =>
        Batch.Pool.exists_complete hr ⟨hregistry, hcache⟩ hworkers hends,
        fun hsturdy => ?_⟩
      obtain ⟨e', notes, arrivals, hbatch, hdelivered⟩ :=
        Batch.run_delivered (fun p hp => ⟨hr p hp, hsturdy p hp⟩) ⟨hregistry,
          hcache⟩ 0 hends
      refine ⟨e', notes, ?_⟩
      rw [Batch.lint, hbatch, hresults.unique hdelivered.collect]
      rfl

/-- A rule that reports the end of a file. -/
def ender : Provider Unit :=
  .ofVisitor { id := "x:ender" } fun _ =>
    { memory := (), last := fun _ => .emit 0 "end" false fun _ => .finish () }

/-- Two files of the same name, for the second of which the only rule is
turned off: however they are dealt with, there is one violation in the first
result and none in the second. -/
theorem parallel_lint_as_alone_same_name :
    let r : Registry Unit := ⟨0, [("x:ender", ender)]⟩
    let on : SourceFile := ⟨"a.kt", Tree.build .file [], {}⟩
    let off : SourceFile := ⟨"a.kt", Tree.build .file [],
      { rules := [("x:ender", .plain .off)] }⟩
    ∃ results, Batch.AsAlone 5 r [on, off] results ∧
      results.map (fun x => (x.name, x.outcome.toOption.map fun o =>
        o.violations.length)) =
        [("a.kt", some 1), ("a.kt", some 0)] ∧
      (∀ workers, 0 < workers →
        ∃ pool, Batch.Pool.Run 5 workers [on, off]
          (.start { registry := r } [on, off]) pool ∧ pool.Complete) ∧
      ∀ workers pool arrivals, Batch.Pool.Run 5 workers [on, off]
        (.start { registry := r } [on, off]) pool →
        pool.Complete → arrivals.Perm pool.arrivals →
            Batch.collect ["a.kt", "a.kt"] arrivals = results := by
  intro r on off
  have hr : ∀ p ∈ r.providers.values, p.Stateless := by
    intro p hp i j
    cases List.mem_singleton.mp hp
    rfl
  let count : Except EngineError Outcome → Option Nat :=
    fun x => x.toOption.map fun o => o.violations.length
  have hon : (Batch.alone 5 r on).map count = some (some 1) := by decide +kernel
  have hoff : (Batch.alone 5 r off).map count = some (some 0) := by
    decide +kernel
  have hends : ∀ file ∈ [on, off], ∃ outcome, Batch.alone 5 r file =
      some outcome := by
    intro file hfile
    rcases List.mem_pair.mp hfile with rfl | rfl
    · exact (Option.map_eq_some_iff.mp hon).imp fun _ h => h.1
    · exact (Option.map_eq_some_iff.mp hoff).imp fun _ h => h.1
  obtain ⟨hall, hone⟩ := parallel_lint_as_alone r hr 5 [on, off]
  obtain ⟨results, hresults, hunique, -, hrun⟩ := hone hends
  refine ⟨results, hresults, ?_,
    (hrun { registry := r } rfl (OrderCache.faithful_empty r)).1, ?_⟩
  · cases hresults with
    | cons hfirst hrest =>
      cases hrest with
      | cons hsecond hnil =>
        cases hnil
        rw [hfirst.2, Option.map_some, Option.some.injEq] at hon
        rw [hsecond.2, Option.map_some, Option.some.injEq] at hoff
        simp only [List.map_cons, List.map_nil, hfirst.1, hsecond.1,
          ← hon, ← hoff]
        rfl
  · intro workers pool arrivals hpool hcomplete hperm
    exact hunique _ (hall _ workers pool arrivals rfl
      (OrderCache.faithful_empty r) hpool hcomplete hperm)

end TreeLint
