import TreeLint.Proofs.Text.Bytes
import TreeLint.Proofs.Tree.Leaves
import TreeLint.Proofs.Tree.Neighbours

/-!
# Offsets, lengths and text

The text of a node, its length and its offset can each be worked out by
following the links between nodes: the text and the length from the
children, the offset from the siblings before the node and those before each
node above it. Seen from the document as a whole they are one thing, a cut
of its tokens into those before the node, those of the node and those behind
it (`Forest.Around`). So they agree: a node covers the bytes of the file
from its offset on, as many as its length says (`layout_agrees`).

Specification, §3.
-/

namespace TreeLint

open Forest (Context Layer)
open Forest.Context

/-! ## Bytes -/

namespace Text

theorem bytes_append (s u : String) : bytes (s ++ u) = bytes s ++ bytes u := by
  rw [bytes_eq_flatMap, bytes_eq_flatMap, bytes_eq_flatMap,
    String.toList_append, List.flatMap_append]

theorem length_bytes (s : String) : (bytes s).length = s.utf8ByteSize := by
  rw [bytes, Array.length_toList]
  rfl

theorem utf8ByteSize_join (l : List String) :
    (String.join l).utf8ByteSize = (l.map String.utf8ByteSize).foldr
      (· + ·) 0 := by
  induction l with
  | nil => rfl
  | cons s l ih =>
    rw [String.join_cons, String.utf8ByteSize_append, ih, List.map_cons,
      List.foldr_cons]

end Text

/-! ## Tokens of several trees -/

theorem Token.texts_eq_join (toks : List Token) :
    Token.texts toks = String.join (toks.map Token.text) := by
  induction toks with
  | nil => rfl
  | cons tok toks ih => rw [Token.texts, List.map_cons, String.join_cons, ih]

theorem Token.texts_flatMap {α : Type} (l : List α) (f : α → List Token) :
    Token.texts (l.flatMap f) =
      String.join (l.map fun a => Token.texts (f a)) := by
  induction l with
  | nil => rfl
  | cons a l ih =>
    rw [List.flatMap_cons, Token.texts_append, List.map_cons,
      String.join_cons, ih]

namespace Tree

variable {t : Tree} {C : Context} {l : Layer} {f s : Forest}
  {m n p a b : NodeId} {pre post : List Token}

/-! ## Down and up -/

/-- The tokens of a forest anywhere in the document, from those of its trees. -/
theorem Shows.tokens_eq_flatMap (h : t.Shows (fill C f)) :
    f.tokens = f.roots.flatMap fun m => (t.subtree m).tokens := by
  have hf : f.ids.Nodup := by
    have hall := h.nodup
    rw [Forest.ids_fill, List.nodup_append, List.nodup_append] at hall
    exact hall.1.2.1
  rw [Forest.flatMap_roots rfl Forest.tokens_append hf]
  refine List.flatMap_congr fun m hm => ?_
  obtain ⟨s, hs⟩ := Forest.exists_subtree (Forest.mem_ids_of_mem_roots hm)
  rw [h.subtree_eq hs, hs, Option.getD_some]

theorem Shows.texts_eq_join (h : t.Shows (fill C f)) :
    Token.texts f.tokens = String.join (f.roots.map t.text) := by
  rw [h.tokens_eq_flatMap, Token.texts_flatMap]
  exact congrArg String.join (List.map_congr_left fun m _ => (text_eq t m).symm)

/-- The way down to an attached node. -/
theorem Consistent.shows (h : t.Consistent) (hn : t.isAttached n = true) :
    ∃ C, t.Shows (fill C (t.subtree n)) := by
  have hsub := h.sound.subtree?_document (h.sound.mem_document_iff.mpr hn)
  obtain ⟨C, hC⟩ := Forest.exists_fill
    (Forest.roots_subtree? h.sound.subtree?_root) hsub
  exact ⟨C, h, hC⟩

namespace Consistent

/-- The leaves of a node are those of its descendants that are leaves. -/
theorem leaves_eq_filter (h : t.Consistent) (hn : t.isAttached n = true) :
    t.leaves n = (t.descendants n).filter t.isLeaf := by
  obtain ⟨C, hshows⟩ := h.shows hn
  have hsub : (t.subtree n).labels ⊆ t.document.labels := by
    rw [hshows.document, Forest.labels_fill]
    exact List.subset_append_of_subset_left _ (List.subset_append_right _ _)
  show (t.subtree n).tokens.map Token.id = (t.subtree n).ids.filter t.isLeaf
  rw [← Forest.map_fst_labels, h.sound.filter_isLeaf hsub,
    Forest.tokens_eq_filterMap]

/-- The text of a node is its own, if it is a token, and that of its
children. -/
theorem text_eq_children (h : t.Consistent) (hn : t.isAttached n = true) :
    t.text n = (t.tokenText? n).getD "" ++ String.join
      ((t.children n).map t.text) := by
  obtain ⟨C, hshows⟩ := h.shows hn
  have hsub := h.sound.subtree?_document (h.sound.mem_document_iff.mpr hn)
  rcases Forest.eq_of_roots_eq_singleton (Forest.roots_subtree? hsub) with ⟨k,
    y, hs⟩ | ⟨k, c, hs⟩
  · simp [text, tokenText?, children, hs, Forest.text, Forest.rootText?,
      Forest.rootChildren, Forest.roots]
  · rw [hs] at hshows
    have hc : t.Shows (fill (⟨n, k, .nil, .nil⟩ :: C) c) := by
      simpa only [fill, Forest.append, Forest.append_nil] using hshows
    rw [text_eq, hs, hshows.children_eq, ← hc.texts_eq_join]
    simp [tokenText?, hs, Forest.rootText?, Forest.tokens]

/-- **The length of a node is its own text and the lengths of its
children.** -/
theorem textLength_eq_children (h : t.Consistent) (hn : t.isAttached n = true) :
    t.textLength n =
      ((t.tokenText? n).getD "").utf8ByteSize +
        ((t.children n).map t.textLength).foldr (· + ·) 0 := by
  rw [textLength_eq, h.text_eq_children hn, String.utf8ByteSize_append,
    Text.utf8ByteSize_join, List.map_map]
  congr 3
  funext m
  exact (textLength_eq t m).symm

/-- A node starts behind the siblings before it, and the first one where its
parent starts. -/
theorem startOffset_eq_parent (h : t.Consistent) (hn : t.isAttached n = true)
    (hp : t.parent? n = some p) :
    t.startOffset n =
      t.startOffset p + (((t.siblings n).takeWhile (· != n)).map
        t.textLength).foldr (· + ·) 0 := by
  obtain ⟨C, hshows⟩ := h.shows hn
  have hs : (t.subtree n).roots = [n] :=
    Forest.roots_subtree? (h.sound.subtree?_document
      (h.sound.mem_document_iff.mpr hn))
  cases C with
  | nil =>
    rw [(hshows.top hs).1] at hp
    cases hp
  | cons l C =>
    obtain ⟨i, k, before, after⟩ := l
    obtain rfl : i = p := Option.some.inj ((hshows.parent?_eq hs).symm.trans hp)
    -- the same document, seen from the parent and from the siblings before
    -- the node
    have hparent :
        t.Shows (fill C (.node i k (before.append ((t.subtree n).append after))
          .nil)) := hshows
    have hbefore : t.Shows (fill (⟨i, k, .nil, (t.subtree n).append after⟩ :: C)
        before) := hshows
    have hsiblings : (t.siblings n).takeWhile (· != n) = before.roots :=
      List.reverse_injective (h.sound.siblings_of_children
        (hshows.siblings_eq hs)).1
    have hlengths : before.roots.map t.textLength =
        (before.roots.map t.text).map String.utf8ByteSize := by
      rw [List.map_map]
      exact List.map_congr_left fun m _ => textLength_eq t m
    rw [hsiblings, hlengths, ← Text.utf8ByteSize_join, ← hbefore.texts_eq_join]
    rw [h.sound.startOffset_eq (hshows.around hs),
      h.sound.startOffset_eq (hparent.around rfl), leftTokens,
      Token.texts_append, String.utf8ByteSize_append]

end Consistent

/-! ## Across -/

namespace Sound

/-- **The text of a node is the texts of its tokens one after the other.**
-/
theorem text_eq_join (h : t.Sound) (hn : n ∈ t.document.ids) :
    t.text n = String.join ((t.leaves n).map t.text) := by
  obtain ⟨pre, post, ha⟩ := h.around hn
  have htexts : ∀ tok ∈ (t.subtree n).tokens, t.text tok.id = tok.text := by
    intro tok htok
    refine h.text_token ?_
    rw [ha.tokens_eq]
    exact List.mem_append_left _ (List.mem_append_right _ htok)
  rw [text_eq, Token.texts_eq_join, leaves, List.map_map]
  exact congrArg String.join (List.map_congr_left fun tok htok =>
    (htexts tok htok).symm)

/-- The bytes of a node are those from its offset on. -/
theorem bytes_eq (h : t.Sound) (hn : n ∈ t.document.ids) :
    t.startOffset n + t.textLength n ≤ t.toText.utf8ByteSize ∧
      ((Text.bytes t.toText).drop (t.startOffset n)).take (t.textLength n) =
        Text.bytes (t.text n) := by
  obtain ⟨pre, post, ha⟩ := h.around hn
  have hwhole : t.toText = Token.texts pre ++ t.text n ++ Token.texts post := by
    rw [toText_eq, ha.tokens_eq, Token.texts_append,
      Token.texts_append, ← text_eq]
  rw [h.startOffset_eq ha, textLength_eq, hwhole]
  constructor
  · simp only [String.utf8ByteSize_append]
    omega
  · rw [Text.bytes_append, Text.bytes_append, List.append_assoc,
      ← Text.length_bytes, ← Text.length_bytes,
      List.drop_left, List.take_left]

/-- What comes behind all descendants of a node starts no earlier than the
node ends. -/
theorem startOffset_behind (h : t.Sound) (hn : n ∈ t.document.ids)
    (hbehind : ∀ d ∈ t.descendants n, t.document.Precedes d m) :
    t.startOffset n + t.textLength n ≤ t.startOffset m := by
  have hf := h.nodup_document
  obtain ⟨pre, post, ha⟩ := h.around hn
  have hself : n ∈ t.descendants n :=
    Forest.mem_ids_of_roots_eq (Forest.roots_subtree? ha.subtree?)
  have hnm := hbehind n hself
  obtain ⟨pre', post', ha'⟩ := h.around hnm.mem_right
  -- all tokens before the node and under it come before the other node
  have hfront : ∀ tok ∈ pre ++ (t.subtree n).tokens,
      decide (t.document.Precedes tok.id m) = true := by
    intro tok htok
    rw [decide_eq_true_iff]
    rcases List.mem_append.mp htok with htok | htok
    · exact (ha.precedes_of_mem_pre htok).trans hnm hf
    · exact hbehind tok.id ((Forest.map_id_tokens_sublist _).subset
        (List.mem_map_of_mem htok))
  have hpre' := ha'.pre_eq_filter hf
  rw [ha.tokens_eq, List.filter_append, List.filter_eq_self.mpr hfront] at hpre'
  rw [h.startOffset_eq ha, h.startOffset_eq ha', textLength_eq, text_eq, hpre',
    Token.texts_append, Token.texts_append,
    String.utf8ByteSize_append, String.utf8ByteSize_append]
  exact Nat.le_add_right _ _

theorem startOffset_root (h : t.Sound) : t.startOffset root = 0 := by
  rcases h.forest_cases with ⟨k, y, r, hf⟩ | ⟨k, c, r, hf⟩ <;>
    simp [startOffset, component, hf, Forest.component?, Forest.offset?]

/-- A leaf starts where the leaf before it ends. -/
theorem startOffset_consecutive (h : t.Sound)
    (hab : [a, b] <:+: t.leaves root) :
    t.startOffset b = t.startOffset a + t.textLength a := by
  obtain ⟨as, bs, hsplit⟩ := hab
  rw [List.append_assoc] at hsplit
  obtain ⟨front, both, htokens, -, hboth⟩ :=
    List.map_eq_append_iff.mp hsplit.symm
  obtain ⟨tok, rest, rfl, rfl, hrest⟩ := List.map_eq_cons_iff.mp hboth
  obtain ⟨tok', back, rfl, rfl, -⟩ := List.map_eq_cons_iff.mp hrest
  have hdoc : t.document.tokens = front ++ tok :: tok' :: back := htokens
  have hdoc' : t.document.tokens = (front ++ [tok]) ++ tok' :: back := by
    rw [hdoc, List.append_cons]
  rw [h.startOffset_eq (h.around_of_tokens hdoc),
    h.startOffset_eq (h.around_of_tokens hdoc'), textLength_eq,
    h.text_token (by simp [hdoc]), Token.texts_append,
      String.utf8ByteSize_append]
  simp [Token.texts]

end Sound

/-! ## Main statement -/

/-- Offsets, lengths and texts of the attached nodes of a tree agree. -/
structure LaidOut (t : Tree) : Prop where
  /-- The leaves of a node, in document order, make up its text. -/
  leaves : ∀ n, t.isAttached n = true →
    t.leaves n = (t.descendants n).filter t.isLeaf ∧
      t.text n = String.join ((t.leaves n).map t.text)
  length : ∀ n, t.isAttached n = true → t.textLength n = (t.text n).utf8ByteSize
  /-- A node covers the bytes of the file from its offset on. -/
  bytes : ∀ n, t.isAttached n = true →
    t.startOffset n + t.textLength n ≤ t.toText.utf8ByteSize ∧
      ((Text.bytes t.toText).drop (t.startOffset n)).take (t.textLength n) =
        Text.bytes (t.text n)
  behind : ∀ n m, t.isAttached n = true →
    (∀ d ∈ t.descendants n, t.document.Precedes d m) →
    t.startOffset n + t.textLength n ≤ t.startOffset m
  consecutive : ∀ a b, [a, b] <:+: t.leaves root →
    t.startOffset b = t.startOffset a + t.textLength a
  /-- Text and length come from the node itself and its children. -/
  descent : ∀ n, t.isAttached n = true →
    t.text n = (t.tokenText? n).getD "" ++ String.join
      ((t.children n).map t.text) ∧
      t.textLength n =
        ((t.tokenText? n).getD "").utf8ByteSize +
          ((t.children n).map t.textLength).foldr (· + ·) 0
  /-- The offset comes from the siblings before the node and the offset of
  its parent. -/
  ascent : ∀ n p, t.isAttached n = true → t.parent? n = some p →
    t.startOffset n = t.startOffset p +
      (((t.siblings n).takeWhile (· != n)).map t.textLength).foldr (· + ·) 0
  top : t.startOffset root = 0

/-- **Offsets, lengths and text agree** in every tree that can come about.
Specification, §3. -/
theorem layout_agrees {t : Tree} (h : t.Reachable) : t.LaidOut := by
  have hc := h.consistent
  have hs := hc.sound
  exact {
    leaves := fun n hn =>
      ⟨hc.leaves_eq_filter hn, hs.text_eq_join (hs.mem_document_iff.mpr hn)⟩
    length := fun n _ => textLength_eq t n
    bytes := fun n hn => hs.bytes_eq (hs.mem_document_iff.mpr hn)
    behind := fun n m hn hbehind =>
      hs.startOffset_behind (hs.mem_document_iff.mpr hn) hbehind
    consecutive := fun a b hab => hs.startOffset_consecutive hab
    descent := fun n hn => ⟨hc.text_eq_children hn,
      hc.textLength_eq_children hn⟩
    ascent := fun n p hn hp => hc.startOffset_eq_parent hn hp
    top := hs.startOffset_root }

/-- A character of two bytes, next to an empty node inside a block and
followed by an empty token. -/
theorem layout_agrees_two_bytes :
    let t := build .file
      [.start .block, .token .identifier "é", .start .block, .finish, .finish,
        .token .whitespace "",
        .token .identifier "b"]
    t.isAttached 1 = true ∧ t.leaves root = [2, 4, 5] ∧ t.startOffset 5 = 2 ∧
      t.text 1 = "é" ∧
      ((Text.bytes t.toText).drop (t.startOffset 1)).take (t.textLength 1) =
        Text.bytes (t.text 1) ∧
      t.startOffset 1 + t.textLength 1 ≤ t.startOffset 4 ∧
        t.startOffset 4 = t.startOffset 2 + t.textLength 2 ∧
      t.startOffset 3 = t.startOffset 1 +
          (([2].map t.textLength).foldr (· + ·) 0) := by
  intro t
  have hlaid := layout_agrees (t := t) ⟨.file, _, [], rfl⟩
  exact ⟨by decide, by decide, by decide, (hlaid.leaves 1 (by decide)).2,
    (hlaid.bytes 1 (by decide)).2,
    hlaid.behind 1 4 (by decide) (by decide),
      hlaid.consecutive 2 4 ⟨[], [5], by decide⟩,
    hlaid.ascent 3 1 (by decide) (by decide)⟩

end Tree

end TreeLint
