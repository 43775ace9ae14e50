import Mathlib.Data.List.Induction
import TreeLint.Proofs.Tree.Layout

/-!
# A tree holds what was reported

While a tree is built, the open nodes are the way down its right edge:
nothing stands behind any of them, so a new node under the innermost one
comes last in pre-order (`Builder.OnEdge`). Hence the nodes are numbered in
pre-order and show the events in the order in which they were reported.

Which nodes are open can be told from the events alone: a node is closed as
soon as there were more closings than openings since it was opened
(`Unclosed`). The number of openings over closings is the place of a node
that is still open among the open ones (`BuildEvent.OpenAt`), and the
builder keeps to it (`Builder.Holds`). `build_records` puts the two
together.

Specification, §6: a parser starts nodes, reports tokens and finishes nodes.
-/

namespace TreeLint

open Forest (Context Layer)
open Forest.Context

/-! ## What events say -/

namespace BuildEvent

variable {events before later : List BuildEvent} {event e : BuildEvent}
  {i : Nat} {m n p : NodeId} {k : Kind}

/-- The kind and the text of the node that an event creates. Closing a node
creates none. -/
def label? : BuildEvent → Option (Kind × Option String)
  | .start kind => some (kind, none)
  | .token kind text => some (kind, some text)
  | .finish => none

/-- The text that an event adds to the file. -/
def text? : BuildEvent → Option String
  | .token _ text => some text
  | _ => none

def isStart : BuildEvent → Bool
  | .start _ => true
  | _ => false

/-- The identity of the node that is created next after some events: the
root comes first. -/
def nextNode (before : List BuildEvent) : NodeId :=
  (before.filterMap label?).length + 1

/-- Nothing was closed that was opened before these events. -/
def Unclosed (later : List BuildEvent) : Prop :=
  ∀ l, l <+: later → l.count .finish ≤ l.countP isStart

/-- The nodes that are open after some events: the root, and every node that
one of them opened and none of the later ones closed. -/
inductive IsOpen (events : List BuildEvent) : NodeId → Prop
  | root : IsOpen events Tree.root
  | opened {before later : List BuildEvent} {kind : Kind}
      (h : events = before ++ .start kind :: later) (hlater : Unclosed later) :
      IsOpen events (nextNode before)

/-- The innermost of the open nodes is the one that was created last. -/
structure Innermost (events : List BuildEvent) (p : NodeId) : Prop where
  isOpen : IsOpen events p
  last : ∀ q, IsOpen events q → q ≤ p

/-! ## One event more

All that is said about events is said by induction from their end: what one
event more opens, closes or adds. -/

theorem nextNode_concat (events : List BuildEvent) (event : BuildEvent) :
    nextNode (events ++ [event]) =
      nextNode events + (event.label?.toList).length := by
  unfold nextNode
  cases event <;> simp [label?]

theorem nextNode_lt (h : events = before ++ event :: later)
    (hevent : event.label?.isSome = true) :
    nextNode before < nextNode events := by
  obtain ⟨label, hlabel⟩ := Option.isSome_iff_exists.mp hevent
  simp [nextNode, h, List.filterMap_cons_some hlabel]

/-- An event among one more event is the last of them or one of the others.
-/
theorem concat_eq_append_cons_iff :
    events ++ [event] = before ++ e :: later ↔
      (event = e ∧ events = before ∧ later = []) ∨ ∃ l, later = l ++ [event] ∧
        events = before ++ e :: l := by
  constructor
  · intro h
    rcases List.eq_nil_or_concat' later with rfl | ⟨l, x, rfl⟩
    · obtain ⟨hevents, hevent⟩ := List.append_inj' h rfl
      exact Or.inl ⟨List.singleton_inj.mp hevent, hevents, rfl⟩
    · rw [← List.cons_append, ← List.append_assoc] at h
      obtain ⟨hevents, hevent⟩ := List.append_inj' h rfl
      exact Or.inr ⟨l, by rw [List.singleton_inj.mp hevent], hevents⟩
  · rintro (⟨rfl, rfl, rfl⟩ | ⟨l, rfl, rfl⟩)
    · rfl
    · simp

theorem unclosed_nil : Unclosed [] := by
  intro l hl
  rw [List.prefix_nil.mp hl]
  exact Nat.le_refl 0

theorem Unclosed.le (h : Unclosed later) :
    later.count .finish ≤ later.countP isStart :=
  h later List.prefix_rfl

/-- A node is not closed by one event more unless closings then outnumber
openings. -/
theorem unclosed_concat_iff :
    Unclosed (later ++ [event]) ↔
      Unclosed later ∧ (later ++ [event]).count .finish ≤
        (later ++ [event]).countP isStart := by
  constructor
  · intro h
    exact ⟨fun l hl => h l (hl.trans (List.prefix_append _ _)), h.le⟩
  · rintro ⟨h, hall⟩ l hl
    rcases List.prefix_concat_iff.mp hl with rfl | hl
    · exact hall
    · exact h l hl

/-! ## The place of an open node -/

/-- A node that was opened before these events is still open, with so many
open nodes inside it. -/
def Nested (later : List BuildEvent) (i : Nat) : Prop :=
  Unclosed later ∧ later.countP isStart = later.count .finish + i

theorem nested_nil_iff : Nested [] i ↔ i = 0 := by
  simp [Nested, unclosed_nil, eq_comm]

/-- Another opening puts a node one level further out. -/
theorem nested_concat_start :
    Nested (later ++ [.start k]) i ↔ ∃ j, i = j + 1 ∧ Nested later j := by
  unfold Nested
  rw [unclosed_concat_iff]
  simp only [List.countP_append, List.count_append, List.countP_singleton,
    List.count_singleton, isStart, if_true,
    beq_iff_eq, reduceCtorEq, if_false]
  constructor
  · rintro ⟨⟨hlater, -⟩, hcount⟩
    have hle := hlater.le
    exact ⟨i - 1, by omega, hlater, by omega⟩
  · rintro ⟨j, rfl, hlater, hcount⟩
    exact ⟨⟨hlater, by omega⟩, by omega⟩

/-- A token changes nothing about what is open. -/
theorem nested_concat_token {text : String} :
    Nested (later ++ [.token k text]) i ↔ Nested later i := by
  unfold Nested
  rw [unclosed_concat_iff]
  simp only [List.countP_append, List.count_append, List.countP_singleton,
    List.count_singleton, isStart,
    Bool.false_eq_true, beq_iff_eq, reduceCtorEq, if_false, Nat.add_zero]
  constructor
  · rintro ⟨⟨hlater, -⟩, hcount⟩
    exact ⟨hlater, hcount⟩
  · rintro ⟨hlater, hcount⟩
    exact ⟨⟨hlater, hlater.le⟩, hcount⟩

/-- A closing brings it one level further in. -/
theorem nested_concat_finish :
    Nested (later ++ [.finish]) i ↔ Nested later (i + 1) := by
  unfold Nested
  rw [unclosed_concat_iff]
  simp only [List.countP_append, List.count_append, List.countP_singleton,
    List.count_singleton, isStart,
    Bool.false_eq_true, beq_self_eq_true, if_true, if_false]
  constructor
  · rintro ⟨⟨hlater, -⟩, hcount⟩
    exact ⟨hlater, by omega⟩
  · rintro ⟨hlater, hcount⟩
    exact ⟨⟨hlater, by omega⟩, by omega⟩

/-- After some events a node is open that one of them opened, with so many
open nodes inside it. -/
def OpenAt (events : List BuildEvent) (i : Nat) (n : NodeId) : Prop :=
  ∃ before kind later, events = before ++ .start kind :: later ∧
    n = nextNode before ∧ Nested later i

theorem not_openAt_nil : ¬ OpenAt [] i n := by
  rintro ⟨before, kind, later, h, -⟩
  simp at h

/-- One event more may open a node, and comes later than what opened the
others. -/
theorem openAt_concat_iff :
    OpenAt (events ++ [event]) i n ↔
      (event.isStart = true ∧ n = nextNode events ∧ i = 0) ∨
      ∃ before kind later, events = before ++ .start kind :: later ∧
        n = nextNode before ∧
        Nested (later ++ [event]) i := by
  constructor
  · rintro ⟨before, kind, later, h, rfl, hnested⟩
    rcases concat_eq_append_cons_iff.mp h with ⟨rfl, rfl, rfl⟩ | ⟨l, rfl, hl⟩
    · exact Or.inl ⟨rfl, rfl, nested_nil_iff.mp hnested⟩
    · exact Or.inr ⟨before, kind, l, hl, rfl, hnested⟩
  · rintro (⟨hstart, rfl, rfl⟩ | ⟨before, kind, later, rfl, rfl, hnested⟩)
    · cases event with
      | start k => exact ⟨events, k, [], rfl, rfl, nested_nil_iff.mpr rfl⟩
      | token => cases hstart
      | finish => cases hstart
    · exact ⟨before, kind, later ++ [event], by simp, rfl, hnested⟩

/-- What is open after an opening: the new node innermost, the others one
level further out. -/
theorem openAt_concat_start :
    OpenAt (events ++ [.start k]) i n ↔ (n = nextNode events ∧ i = 0) ∨
      ∃ j, i = j + 1 ∧ OpenAt events j n := by
  rw [openAt_concat_iff]
  simp only [isStart, true_and, nested_concat_start, OpenAt]
  grind

theorem openAt_concat_token {text : String} :
    OpenAt (events ++ [.token k text]) i n ↔ OpenAt events i n := by
  rw [openAt_concat_iff]
  simp only [isStart, Bool.false_eq_true, false_and, false_or,
    nested_concat_token, OpenAt]

theorem openAt_concat_finish :
    OpenAt (events ++ [.finish]) i n ↔ OpenAt events (i + 1) n := by
  rw [openAt_concat_iff]
  simp only [isStart, Bool.false_eq_true, false_and, false_or,
    nested_concat_finish, OpenAt]

/-- Open are the root and every node that is open at some level. -/
theorem isOpen_iff :
    IsOpen events n ↔ n = Tree.root ∨ ∃ i, OpenAt events i n := by
  constructor
  · rintro (_ | ⟨h, hlater⟩)
    · exact Or.inl rfl
    · exact Or.inr ⟨_, _, _, _, h, rfl, hlater,
        (Nat.add_sub_of_le hlater.le).symm⟩
  · rintro (rfl | ⟨i, before, kind, later, h, rfl, hlater, -⟩)
    · exact .root
    · exact .opened h hlater

end BuildEvent

/-! ## The right edge -/

namespace Forest

/-- What stands in the hole can as well be counted among what stands before
it. -/
theorem fill_before (C : Context) (l : Layer) (x : Forest) :
    fill ({ l with before := l.before.append x } :: C) .nil =
      fill (l :: C) x := by
  simp [fill, append, append_assoc]

theorem map_text_tokens (f : Forest) :
    f.tokens.map Token.text = (f.labels.map Prod.snd).filterMap Prod.snd := by
  rw [tokens_eq_filterMap, List.map_filterMap, List.filterMap_map]
  congr 1
  funext label
  obtain ⟨i, k, y⟩ := label
  cases y <;> rfl

theorem roots_eq_nil_of_labels {f : Forest}
    (h : f.labels = []) : f.roots = [] := by
  cases f with
  | nil => rfl
  | token => cases h
  | node => cases h

end Forest

namespace Builder

variable {b : Builder} {C : Context} {l : Layer} {x : Forest}
  {events : List BuildEvent} {kind : Kind} {n : NodeId}

/-- The open nodes are the way down to the hole of a context that has
nothing behind the hole. -/
structure OnEdge (b : Builder) (C : Context) : Prop where
  forest : b.tree.forest = fill C .nil
  path : C.map Layer.id = b.opened ++ [Tree.root]
  last : C.right = []

namespace OnEdge

theorem current_eq (h : b.OnEdge (l :: C)) : b.current = l.id := by
  have hpath := h.path
  unfold Builder.current
  cases ho : b.opened with
  | nil => simpa [ho] using congrArg List.head? hpath.symm
  | cons n ns => simpa [ho] using congrArg List.head? hpath.symm

/-- The right edge is never empty: the root is never closed. -/
theorem exists_cons (h : b.OnEdge C) : ∃ l D, C = l :: D := by
  cases C with
  | nil =>
    have hpath := h.path
    simp at hpath
  | cons l D => exact ⟨l, D, rfl⟩

/-- A new node goes into the hole. -/
theorem attach_forest (h : b.OnEdge (l :: C)) (hb : b.Ready) (x : Forest) :
    (b.attach x).forest = fill (l :: C) x := by
  have hnodup : (fill (l :: C) .nil).ids.Nodup := h.forest ▸ hb.sound.nodup
  have hlast := h.last
  rw [right, List.append_eq_nil_iff] at hlast
  have hchildren : (b.tree.children l.id).length =
      l.before.roots.length + Forest.nil.roots.length := by
    have hl := (Forest.not_mem_context (C := C) hnodup (m := l.id)
      (by simp [Forest.ids])).1
    have hsub : (fill (l :: C) .nil).subtree? l.id =
        some (.node l.id l.kind (l.before.append (Forest.nil.append l.after))
            .nil) := by
      rw [fill, Forest.subtree?_fill (by simp [Forest.ids]) hl,
        Forest.subtree?, if_pos rfl]
    rw [Tree.children, Tree.subtree, h.forest, hsub]
    simp [Forest.rootChildren, Forest.append,
      Forest.roots_eq_nil_of_labels hlast.1, Forest.roots]
  rw [attach, h.current_eq, hchildren, h.forest]
  exact Forest.insertUnder_fill_cons hnodup x

/-- So it comes last in pre-order. -/
theorem labels_attach (h : b.OnEdge C) (hb : b.Ready) (x : Forest) :
    (b.attach x).forest.labels = b.tree.forest.labels ++ x.labels := by
  obtain ⟨l, D, rfl⟩ := h.exists_cons
  rw [h.attach_forest hb, h.forest, Forest.labels_fill,
    Forest.labels_fill, h.last]
  simp [Forest.labels]

/-- Its parent is the innermost open node. -/
theorem parent?_attach (h : b.OnEdge C) (hb : b.Ready)
    (s : Tree.Seed b.tree x) :
    (b.attach x).parent? b.tree.count = some b.current := by
  obtain ⟨l, D, rfl⟩ := h.exists_cons
  have hroots : x.roots = [b.tree.count] := by cases s <;> rfl
  have hnodup : (fill (l :: D) x).ids.Nodup :=
    h.attach_forest hb x ▸ (hb.sound_attach s).nodup
  have hmem : b.tree.count ∈ x.ids := Forest.mem_ids_of_roots_eq hroots
  have habove : x.ancestors? b.tree.count = some [] := by
    cases s <;> simp [Forest.ancestors?]
  rw [Tree.parent?, Tree.ancestors, h.attach_forest hb,
    Forest.ancestors?_fill hmem (Forest.not_mem_context hnodup hmem).1, habove,
      h.current_eq]
  rfl

/-- Every event leaves the open nodes on the right edge. -/
theorem step (h : b.OnEdge C) (hb : b.Ready) (event : BuildEvent) :
    ∃ D, (b.step event).OnEdge D := by
  obtain ⟨l, D, rfl⟩ := h.exists_cons
  have hlast := h.last
  have hpath := h.path
  cases event with
  | start k =>
    refine ⟨⟨b.tree.count, k, .nil, .nil⟩ :: l :: D,
      h.attach_forest hb _, ?_, ?_⟩
    · simpa [Builder.step] using hpath
    · simpa [right, Forest.labels] using hlast
  | token k text =>
    refine ⟨{ l with
      before := l.before.append (.token b.tree.count k text .nil) } :: D, ?_,
      hpath, hlast⟩
    rw [Forest.fill_before]
    exact h.attach_forest hb _
  | finish =>
    cases ho : b.opened with
    | nil =>
      exact ⟨l :: D, h.forest, by simpa [Builder.step, ho] using hpath, hlast⟩
    | cons n ns =>
      -- the node that is closed stands before the hole from now on
      rw [ho, List.map_cons, List.cons_append] at hpath
      obtain ⟨-, hrest⟩ := List.cons.inj hpath
      cases D with
      | nil => simp at hrest
      | cons l' D =>
        rw [right, List.append_eq_nil_iff] at hlast
        let closed : Forest := .node l.id l.kind
          (l.before.append (Forest.nil.append l.after)) .nil
        refine ⟨{ l' with before := l'.before.append closed } :: D, ?_,
          ?_, hlast.2⟩
        · rw [Forest.fill_before]
          exact h.forest
        · simpa [Builder.step, ho] using hrest

end OnEdge

/-! ## Runs -/

/-- The labels of the nodes that events create, with their identities. -/
def labelsOf (kind : Kind) (events : List BuildEvent) :
    List (NodeId × Kind × Option String) :=
  (List.range (BuildEvent.nextNode events)).zip
    ((kind, none) :: events.filterMap BuildEvent.label?)

theorem map_fst_labelsOf (kind : Kind) (events : List BuildEvent) :
    (labelsOf kind events).map Prod.fst =
      List.range (BuildEvent.nextNode events) := by
  apply List.map_fst_zip
  simp [BuildEvent.nextNode]

theorem map_snd_labelsOf (kind : Kind) (events : List BuildEvent) :
    (labelsOf kind events).map Prod.snd =
      (kind, none) :: events.filterMap BuildEvent.label? := by
  apply List.map_snd_zip
  simp [BuildEvent.nextNode]

/-- One event more adds its label at the end. -/
theorem labelsOf_concat (kind : Kind) (events : List BuildEvent)
    (event : BuildEvent) :
    labelsOf kind (events ++ [event]) =
      labelsOf kind events ++ event.label?.toList.map fun label =>
        (BuildEvent.nextNode events, label) := by
  cases hlabel : event.label? with
  | none =>
    simp [labelsOf, BuildEvent.nextNode_concat, hlabel,
      List.filterMap_cons_none hlabel]
  | some label =>
    have hcreated :
        (events ++ [event]).filterMap BuildEvent.label? =
            events.filterMap BuildEvent.label? ++ [label] := by
      simp [List.filterMap_cons_some hlabel]
    rw [labelsOf, BuildEvent.nextNode_concat, hlabel, hcreated,
      ← List.cons_append, Option.toList_some,
      List.length_singleton, List.range_succ,
        List.zip_append (by simp [BuildEvent.nextNode])]
    rfl

theorem root_mem_labelsOf (kind : Kind) (events : List BuildEvent) :
    (Tree.root, kind, none) ∈ labelsOf kind events := by
  rw [labelsOf, BuildEvent.nextNode, List.range_succ_eq_map, List.zip_cons_cons]
  exact List.mem_cons_self

/-- Every event that makes a node labels it. -/
theorem mem_labelsOf {before after : List BuildEvent} {event : BuildEvent}
    {label : Kind × Option String} (h : events = before ++ event :: after)
    (hlabel : event.label? = some label) :
    (BuildEvent.nextNode before, label) ∈ labelsOf kind events := by
  have hlt := BuildEvent.nextNode_lt h
    (Option.isSome_iff_exists.mpr ⟨label, hlabel⟩)
  rw [List.mem_iff_getElem?]
  refine ⟨BuildEvent.nextNode before,
    List.getElem?_zip_eq_some.mpr ⟨List.getElem?_range hlt, ?_⟩⟩
  rw [BuildEvent.nextNode, List.getElem?_cons_succ, h, List.filterMap_append,
    List.filterMap_cons_some hlabel,
    List.getElem?_append_right (Nat.le_refl _), Nat.sub_self,
      List.getElem?_cons_zero]

/-- What a builder keeps while it goes through events. -/
structure Holds (b : Builder) (kind : Kind)
    (events : List BuildEvent) : Prop where
  ready : b.Ready
  edge : ∃ C, b.OnEdge C
  roots : b.tree.forest.roots = [Tree.root]
  labels : b.tree.forest.labels = labelsOf kind events
  count : b.tree.count = BuildEvent.nextNode events
  opened : ∀ i n, b.opened[i]? = some n ↔ BuildEvent.OpenAt events i n
  /-- Open nodes were created one after the other. -/
  sorted : (b.tree.count :: b.opened).Pairwise (· > ·)
  parents : ∀ before event after, events = before ++ event :: after →
    event.label?.isSome = true →
    ∃ p, b.tree.parent? (BuildEvent.nextNode before) = some p ∧
      BuildEvent.Innermost before p

namespace Holds

theorem empty (kind : Kind) : Holds { tree := Tree.empty kind } kind [] where
  ready := ready_empty kind
  edge := ⟨[⟨Tree.root, kind, .nil, .nil⟩], rfl, rfl, rfl⟩
  roots := rfl
  labels := rfl
  count := rfl
  opened i n := by simp [BuildEvent.not_openAt_nil]
  sorted := by simp
  parents before event after h := by simp at h

/-- The innermost open node, as the builder knows it. -/
theorem innermost (h : b.Holds kind events) :
    BuildEvent.Innermost events b.current := by
  have hsorted := (List.pairwise_cons.mp h.sorted).2
  have hopened := h.opened
  unfold current
  cases ho : b.opened with
  | nil =>
    refine ⟨.root, fun q hq => ?_⟩
    rcases BuildEvent.isOpen_iff.mp hq with rfl | ⟨i, hi⟩
    · exact Nat.le_refl _
    · have hnone := (hopened i q).mpr hi
      simp [ho] at hnone
  | cons n ns =>
    rw [ho] at hsorted
    refine ⟨BuildEvent.isOpen_iff.mpr
      (Or.inr ⟨0, (hopened 0 n).mp (by simp [ho])⟩), fun q hq => ?_⟩
    rcases BuildEvent.isOpen_iff.mp hq with rfl | ⟨i, hi⟩
    · exact Nat.zero_le _
    · have hmem := List.mem_of_getElem? ((hopened i q).mpr hi)
      rw [ho] at hmem
      rcases List.mem_cons.mp hmem with rfl | hmem
      · exact Nat.le_refl _
      · exact Nat.le_of_lt ((List.pairwise_cons.mp hsorted).1 q hmem)

/-- Nodes keep their parents when another one is added. -/
theorem parent?_attach_of_lt (h : b.Ready) (s : Tree.Seed b.tree x)
    (hn : n < b.tree.count) :
    (b.attach x).parent? n = b.tree.parent? n := by
  have hroots : x.roots = [b.tree.count] := by cases s <;> rfl
  have hfresh : b.tree.count ∉ b.tree.forest.ids := fun hmem =>
    Nat.lt_irrefl _ ((h.sound.mem_ids _).mp hmem)
  have hkeeps := Forest.keepsBut_insertUnder b.current
    (b.tree.children b.current).length hroots hfresh
    (h.sound_attach s).nodup fun _ =>
      Forest.subtree?_insertUnder_self _ hroots hfresh h.current
  have habove : (b.attach x).forest.ancestors? n =
      b.tree.forest.ancestors? n := by
    refine hkeeps.above n ?_
    rw [s.ids, List.mem_singleton]
    exact Nat.ne_of_lt hn
  rw [Tree.parent?, Tree.ancestors, habove, Tree.parent?, Tree.ancestors]

/-- Attaching one more node gives it the innermost open one as parent and
leaves all others theirs. -/
theorem parents_attach (h : b.Holds kind events) (s : Tree.Seed b.tree x)
    (event : BuildEvent) :
    ∀ before e after, events ++ [event] = before ++ e :: after →
      e.label?.isSome = true →
      ∃ p, (b.attach x).parent? (BuildEvent.nextNode before) = some p ∧
        BuildEvent.Innermost before p := by
  intro before e after hsplit hcreates
  obtain ⟨C, hedge⟩ := h.edge
  rcases BuildEvent.concat_eq_append_cons_iff.mp hsplit with ⟨-, rfl,
    -⟩ | ⟨l, -, hl⟩
  · exact ⟨b.current, h.count ▸ hedge.parent?_attach h.ready s, h.innermost⟩
  · obtain ⟨p, hp, hinner⟩ := h.parents before e l hl hcreates
    have hlt : BuildEvent.nextNode before < b.tree.count :=
      h.count ▸ BuildEvent.nextNode_lt hl hcreates
    exact ⟨p, (parent?_attach_of_lt h.ready s hlt).trans hp, hinner⟩

/-- One event more. -/
theorem step (h : b.Holds kind events) (event : BuildEvent) :
    (b.step event).Holds kind (events ++ [event]) := by
  obtain ⟨C, hedge⟩ := h.edge
  have hready := h.ready.step event
  have hedge' := hedge.step h.ready event
  have hroots : (b.step event).tree.forest.roots = [Tree.root] := by
    cases event with
    | finish => exact h.roots
    | start | token => exact (Forest.roots_insertUnder _ _ _ _).trans h.roots
  have hlabels : (b.step event).tree.forest.labels =
      labelsOf kind (events ++ [event]) := by
    rw [labelsOf_concat, ← h.labels, ← h.count]
    cases event with
    | finish => simp [BuildEvent.label?, Builder.step]
    | start | token => exact hedge.labels_attach h.ready _
  have hcount : (b.step event).tree.count =
      BuildEvent.nextNode (events ++ [event]) := by
    rw [BuildEvent.nextNode_concat, ← h.count]
    cases event <;> rfl
  obtain ⟨hlt, hsorted⟩ := List.pairwise_cons.mp h.sorted
  -- what is left is how the event changes the open nodes, and the parents
  cases event with
  | start k =>
    refine ⟨hready, hedge', hroots, hlabels, hcount, fun i n => ?_, ?_,
      h.parents_attach (.node k) _⟩
    · rw [BuildEvent.openAt_concat_start, ← h.count]
      cases i with
      | zero => simp [Builder.step, eq_comm]
      | succ i => simp [Builder.step, h.opened]
    · refine List.pairwise_cons.mpr ⟨fun n hn => ?_, h.sorted⟩
      rcases List.mem_cons.mp hn with rfl | hn
      · exact Nat.lt_succ_self _
      · exact Nat.lt_succ_of_lt (hlt n hn)
  | token k text =>
    refine ⟨hready, hedge', hroots, hlabels, hcount, fun i n => ?_, ?_,
      h.parents_attach (.token k text) _⟩
    · rw [BuildEvent.openAt_concat_token]
      exact h.opened i n
    · exact List.pairwise_cons.mpr ⟨fun n hn =>
        Nat.lt_succ_of_lt (hlt n hn), hsorted⟩
  | finish =>
    refine ⟨hready, hedge', hroots, hlabels, hcount, fun i n => ?_, ?_,
      fun before e after hsplit hcreates => ?_⟩
    · rw [BuildEvent.openAt_concat_finish, ← h.opened]
      simp [Builder.step]
    · exact h.sorted.sublist (List.Sublist.cons_cons _ (List.drop_sublist _ _))
    · rcases BuildEvent.concat_eq_append_cons_iff.mp hsplit with ⟨rfl, -,
        -⟩ | ⟨l, -, hl⟩
      · cases hcreates
      · exact h.parents before e l hl hcreates

/-- **Run.** After any events the builder holds what they say. -/
theorem foldl_step (kind : Kind) (events : List BuildEvent) :
    (events.foldl Builder.step { tree := Tree.empty kind }).Holds kind
      events := by
  induction events using List.reverseRecOn with
  | nil => exact .empty kind
  | append_singleton events event ih =>
    rw [List.foldl_concat]
    exact ih.step event

end Holds

end Builder

/-! ## Main statement -/

namespace Tree

/-- A tree holds what some events report, below a root of a kind. -/
structure Records (t : Tree) (kind : Kind)
    (events : List BuildEvent) : Prop where
  /-- Identities are given in pre-order. -/
  preorder : t.descendants root = List.range t.count
  root : t.kind? root = some kind ∧ t.tokenText? root = none ∧
    t.parent? root = none
  /-- Besides the root there is one node for each event that creates one. -/
  count : t.count = (events.filterMap BuildEvent.label?).length + 1
  /-- The node of an event has the kind and the text that were reported, and
  the node that was the innermost open one then is its parent. -/
  node : ∀ before event after, events = before ++ event :: after → ∀ k text,
    event.label? = some (k, text) →
    t.kind? (BuildEvent.nextNode before) = some k ∧
      t.tokenText? (BuildEvent.nextNode before) = text ∧
      ∃ p, t.parent? (BuildEvent.nextNode before) = some p ∧
        BuildEvent.Innermost before p
  text : t.toText = String.join (events.filterMap BuildEvent.text?)

theorem filterMap_text?_eq (events : List BuildEvent) :
    events.filterMap BuildEvent.text? =
      (events.filterMap BuildEvent.label?).filterMap Prod.snd := by
  rw [List.filterMap_filterMap]
  congr 1
  funext event
  cases event <;> rfl

/-- **A tree holds what was reported,** whether or not the events are
balanced. Specification, §6. -/
theorem build_records (kind : Kind) (events : List BuildEvent) :
    (build kind events).Records kind events := by
  have h : Builder.Holds _ kind events := .foldl_step kind events
  have hs : (build kind events).Sound := h.ready.sound
  have hdoc : (build kind events).document = (build kind events).forest := by
    rw [document, subtree, build, Forest.subtree?_of_roots_eq h.roots,
      Option.getD_some]
  have hlabels : (build kind events).document.labels =
      Builder.labelsOf kind events := hdoc ▸ h.labels
  have hlabel : ∀ n k text, (n, k, text) ∈ Builder.labelsOf kind events →
      (build kind events).kind? n = some k ∧
          (build kind events).tokenText? n = text := by
    intro n k text hmem
    rw [← hlabels] at hmem
    exact (hs.mem_labels_document_iff.mp hmem).2
  obtain ⟨hkind, htext⟩ :=
    hlabel root kind none (Builder.root_mem_labelsOf kind events)
  refine ⟨?_, ⟨hkind, htext, hs.linked.root_parentless⟩, h.count,
    fun before event after hsplit k text hcreates => ?_, ?_⟩
  · show (build kind events).document.ids = _
    rw [← Forest.map_fst_labels, hlabels, Builder.map_fst_labelsOf, ← h.count]
    rfl
  · obtain ⟨hk, htext⟩ := hlabel _ _ _ (Builder.mem_labelsOf hsplit hcreates)
    exact ⟨hk, htext, h.parents before event after hsplit
      (Option.isSome_iff_exists.mpr ⟨_, hcreates⟩)⟩
  · rw [toText_eq, Token.texts_eq_join, Forest.map_text_tokens, hlabels,
      Builder.map_snd_labelsOf,
      List.filterMap_cons_none rfl, filterMap_text?_eq]

/-- Two closings too many, and a node that is left open. -/
example :
    let t :=
      build .file [.start .block, .finish, .finish, .finish, .start .classBody,
        .token .identifier "a"]
    t.descendants root = [0, 1, 2, 3] ∧ t.parent? 2 = some root ∧
        t.parent? 3 = some 2 := by
  decide

end Tree

end TreeLint
