import TreeLint.Proofs.Rule.Alike
import Mathlib.Data.Finset.Card
import Mathlib.Data.List.Nodup

/-!
# A shared memory of orders

Several registries may share one cache. Whatever was asked of it before, in
whatever order, the cache answers every request as if it worked out each
answer on the spot (`order_cache_transparent`). What carries the proof is
what a cache holds at any time (`OrderCache.Holds`): one entry for every
registry and set of disabled rules that was asked for since the cache was
cleared, and in each the order of the rules of the registry it is kept for.

Specification, §4.1 on caching.
-/

namespace TreeLint

variable {σ : Type}

/-- Something to ask of a cache that registries share. -/
inductive OrderRequest (σ : Type) where
  /-- The order of the rules of a registry without the disabled ones. -/
  | get (r : Registry σ) (disabled : List RuleId)
  /-- The order to make visitors with. With `recreate` the cache stays out
  of it. -/
  | provide (r : Registry σ) (disabled : List RuleId) (recreate : Bool)
  /-- Forget everything. -/
  | clear

namespace OrderRequest

/-- The registry that a request is about. -/
def registry? : OrderRequest σ → Option (Registry σ)
  | .get r _ | .provide r _ _ => some r
  | .clear => none

/-- The answer to a request, worked out on the spot. -/
def answer : OrderRequest σ → Option (Except OrderError (List RuleInfo))
  | .get r disabled | .provide r disabled _ =>
    some (RuleInfo.sort r.infos disabled)
  | .clear => none

/-- The registry and the set of disabled rules whose order a cache has to
know after a request. -/
def pair? : OrderRequest σ → Option (RegistryId × Finset RuleId)
  | .get r disabled | .provide r disabled false =>
    some (r.id, disabled.toFinset)
  | .provide _ _ true | .clear => none

def isClear : OrderRequest σ → Bool
  | .clear => true
  | _ => false

/-- The requests after the last one to forget everything. -/
def sinceClear (history : List (OrderRequest σ)) : List (OrderRequest σ) :=
  (history.reverse.takeWhile fun q => !q.isClear).reverse

/-- The different pairs of a registry and a set of disabled rules that were
asked for since the last request to forget everything. -/
def pairs (history : List (OrderRequest σ)) :
    Finset (RegistryId × Finset RuleId) :=
  ((sinceClear history).filterMap pair?).toFinset

theorem pairs_clear (history : List (OrderRequest σ)) :
    pairs (history ++ [.clear]) = ∅ := by
  simp [pairs, sinceClear, isClear]

theorem pairs_concat (history : List (OrderRequest σ)) {q : OrderRequest σ}
    (hq : q.isClear = false) :
    pairs (history ++ [q]) = pairs history ∪ q.pair?.toList.toFinset := by
  have hsince : sinceClear (history ++ [q]) = sinceClear history ++ [q] := by
    simp [sinceClear, hq]
  rw [pairs, hsince, List.filterMap_append, List.toFinset_append, pairs]
  cases h : q.pair? <;> simp [h]

end OrderRequest

/-! ## Keys -/

theorem toFinset_sortedNames (names : List String) :
    (sortedNames names).toFinset = names.toFinset := by
  ext x
  rw [List.mem_toFinset, List.mem_toFinset, mem_sortedNames]

namespace OrderCache

/-- Serve a request: the cache to go on with, and the order if one was asked
for. -/
def serve (c : OrderCache) : OrderRequest σ → OrderCache × Option StampedOrder
  | .get r disabled =>
    ((c.get r.id r.infos disabled).1, some (c.get r.id r.infos disabled).2)
  | .provide r disabled recreate =>
    ((c.resolve r.id r.infos disabled recreate).1,
      some (c.resolve r.id r.infos disabled recreate).2)
  | .clear => (c.clear, none)

/-- Serve one request after the other: the cache they leave, and the answers. -/
def serveAll (c : OrderCache) :
    List (OrderRequest σ) → OrderCache × List (Option StampedOrder)
  | [] => (c, [])
  | q :: qs =>
    (((c.serve q).1.serveAll qs).1,
      (c.serve q).2 :: ((c.serve q).1.serveAll qs).2)

/-! ## What a cache holds -/

/-- The registry and the set of disabled rules that an entry is kept for. -/
def pairOf (entry : OrderKey × StampedOrder) : RegistryId × Finset RuleId :=
  (entry.1.registry, entry.1.disabled.toFinset)

/-- A cache holds one entry for each of some pairs of a registry and a set
of disabled rules, and the entry is right if the registry is one of those
that share the cache. -/
structure Holds (registries : List (Registry σ))
    (pairs : Finset (RegistryId × Finset RuleId)) (c : OrderCache) : Prop where
  once : (c.entries.map pairOf).Nodup
  pairs_eq : (c.entries.map pairOf).toFinset = pairs
  listed : ∀ entry ∈ c.entries, ∃ disabled, entry.1.disabled =
    sortedNames disabled
  right : ∀ entry ∈ c.entries, ∀ r ∈ registries, r.id = entry.1.registry →
    entry.2.result = RuleInfo.sort r.infos entry.1.disabled

variable {registries : List (Registry σ)}
  {pairs : Finset (RegistryId × Finset RuleId)} {c : OrderCache}
  {r : Registry σ} {disabled : List RuleId}

theorem holds_empty (registries : List (Registry σ)) {c : OrderCache}
    (hc : c.entries = []) :
    c.Holds registries ∅ where
  once := by simp [hc]
  pairs_eq := by simp [hc]
  listed := by simp [hc]
  right := by simp [hc]

/-- **A cache has one entry for each pair that was asked about**
(specification, §4.1). -/
theorem Holds.size_eq (h : c.Holds registries pairs) : c.size = pairs.card := by
  rw [← h.pairs_eq, List.toFinset_card_of_nodup h.once, List.length_map, size]

/-- An entry for a registry and some disabled rules is found under their key. -/
theorem Holds.find?_of_pair (h : c.Holds registries pairs)
    {registry : RegistryId} (hp : (registry, disabled.toFinset) ∈ pairs) :
    ∃ stamped, c.find? ⟨registry, sortedNames disabled⟩ = some stamped := by
  rw [← h.pairs_eq, List.mem_toFinset, List.mem_map] at hp
  obtain ⟨entry, hmem, hpair⟩ := hp
  have hkey : entry.1 = ⟨registry, sortedNames disabled⟩ := by
    obtain ⟨listed, hlisted⟩ := h.listed entry hmem
    obtain ⟨rfl, hset⟩ := Prod.mk.inj hpair
    rw [hlisted, toFinset_sortedNames] at hset
    have hsame : ∀ x, x ∈ listed ↔ x ∈ disabled := fun x => by
      rw [← List.mem_toFinset, hset, List.mem_toFinset]
    rw [← sortedNames_congr hsame, ← hlisted]
  have hfound : (c.entries.find? fun e => e.1 ==
      ⟨registry, sortedNames disabled⟩).isSome := by
    rw [List.find?_isSome]
    exact ⟨entry, hmem, by simp [hkey]⟩
  obtain ⟨found, hfound⟩ := Option.isSome_iff_exists.mp hfound
  exact ⟨found.2, by rw [find?, hfound, Option.map_some]⟩

/-- What is found is an entry. -/
theorem mem_of_find? {key : OrderKey} {stamped : StampedOrder}
    (h : c.find? key = some stamped) :
    (key, stamped) ∈ c.entries := by
  obtain ⟨entry, hentry, rfl⟩ := Option.map_eq_some_iff.mp h
  have hkey : entry.1 = key := by simpa using List.find?_some hentry
  rw [← hkey]
  exact List.mem_of_find?_eq_some hentry

/-- A request that may be answered from memory is answered rightly, and one
entry is added if there was none. -/
theorem Holds.get (h : c.Holds registries pairs)
    (hids : (registries.map Registry.id).Nodup) (hr : r ∈ registries)
    (disabled : List RuleId) :
    (c.get r.id r.infos disabled).1.Holds registries
      (pairs ∪ {(r.id, disabled.toFinset)}) ∧
      (c.get r.id r.infos disabled).2.result =
        RuleInfo.sort r.infos disabled := by
  have hlisting : RuleInfo.sort r.infos (sortedNames disabled) =
      RuleInfo.sort r.infos disabled :=
    RuleInfo.sort_congr (fun id => mem_sortedNames) _
  simp only [OrderCache.get]
  split
  · next stamped hfound =>
    have hmem := mem_of_find? hfound
    have hpair : (r.id, disabled.toFinset) ∈ pairs := by
      rw [← h.pairs_eq, List.mem_toFinset, ← toFinset_sortedNames]
      exact List.mem_map_of_mem hmem
    refine ⟨?_, (h.right _ hmem r hr rfl).trans hlisting⟩
    rwa [Finset.union_eq_left.mpr (Finset.singleton_subset_iff.mpr hpair)]
  · next hnone =>
    refine ⟨?_, rfl⟩
    have hnew : (r.id, disabled.toFinset) ∉ pairs := by
      intro hp
      obtain ⟨stamped, hfound⟩ := h.find?_of_pair hp
      exact absurd hfound (by rw [hnone]; exact nofun)
    simp only [compute]
    constructor
    · rw [List.map_append, List.map_singleton, List.nodup_append_comm,
        List.singleton_append, List.nodup_cons]
      refine ⟨?_, h.once⟩
      rw [← List.mem_toFinset, h.pairs_eq, pairOf, toFinset_sortedNames]
      exact hnew
    · rw [List.map_append, List.toFinset_append, h.pairs_eq]
      simp [pairOf, toFinset_sortedNames]
    · intro entry hentry
      rcases List.mem_append.mp hentry with hold | hlast
      · exact h.listed entry hold
      · cases List.mem_singleton.mp hlast
        exact ⟨disabled, rfl⟩
    · intro entry hentry r' hr' hid
      rcases List.mem_append.mp hentry with hold | hlast
      · exact h.right entry hold r' hr' hid
      · cases List.mem_singleton.mp hlast
        -- Registries that share a cache differ in their identities, so the
        -- entry is for `r` and no other.
        cases List.inj_on_of_nodup_map hids hr' hr hid
        exact hlisting.symm

/-- A request leaves the entries it should and is answered rightly. -/
theorem Holds.serve {history : List (OrderRequest σ)}
    (h : c.Holds registries (OrderRequest.pairs history))
    (hids : (registries.map Registry.id).Nodup) {q : OrderRequest σ}
    (hq : ∀ r ∈ q.registry?, r ∈ registries) :
    (c.serve q).1.Holds registries (OrderRequest.pairs (history ++ [q])) ∧
      (c.serve q).2.map StampedOrder.result = q.answer := by
  have hget : ∀ r ∈ registries, ∀ disabled,
      (c.get r.id r.infos disabled).1.Holds registries
        (OrderRequest.pairs history ∪
          (some (r.id, disabled.toFinset)).toList.toFinset) ∧
      some (c.get r.id r.infos disabled).2.result =
          some (RuleInfo.sort r.infos disabled) := by
    intro r hr disabled
    obtain ⟨hholds, hresult⟩ := h.get hids hr disabled
    exact ⟨by simpa using hholds, congrArg some hresult⟩
  cases q with
  | get r disabled =>
    rw [OrderRequest.pairs_concat _ rfl]
    exact hget r (hq r rfl) disabled
  | provide r disabled recreate =>
    rw [OrderRequest.pairs_concat _ rfl]
    cases recreate with
    | false => exact hget r (hq r rfl) disabled
    | true =>
      refine ⟨?_, rfl⟩
      simp only [OrderRequest.pair?, Option.toList_none, List.toFinset_nil,
        Finset.union_empty]
      exact ⟨h.once, h.pairs_eq, h.listed, h.right⟩
  | clear =>
    rw [OrderRequest.pairs_clear]
    exact ⟨holds_empty registries rfl, rfl⟩

/-- Requests in turn leave the entries they should and are answered rightly. -/
theorem Holds.serveAll (hids : (registries.map Registry.id).Nodup)
    (requests history : List (OrderRequest σ))
    (h : c.Holds registries (OrderRequest.pairs history))
    (hq : ∀ q ∈ requests, ∀ r ∈ q.registry?, r ∈ registries) :
    (c.serveAll requests).1.Holds registries
      (OrderRequest.pairs (history ++ requests)) ∧
      (c.serveAll requests).2.map (Option.map StampedOrder.result) =
        requests.map OrderRequest.answer := by
  induction requests generalizing c history with
  | nil =>
    rw [List.append_nil]
    exact ⟨h, rfl⟩
  | cons q requests ih =>
    obtain ⟨hfirst, hrest⟩ := List.forall_mem_cons.mp hq
    obtain ⟨hholds, hanswer⟩ := h.serve hids hfirst
    obtain ⟨hafter, hanswers⟩ := ih (history ++ [q]) hholds hrest
    rw [List.append_assoc, List.singleton_append] at hafter
    refine ⟨hafter, ?_⟩
    simp only [OrderCache.serveAll, List.map_cons, hanswer, hanswers]

end OrderCache

/-- **The cache does not show.** Registries with different identities share
a cache that is empty at first. Whatever sequence of requests is made, each
one is answered with the order that sorting the rules of its registry gives
on the spot, or with the same contradiction; and the cache then has as many
entries as different pairs of a registry and a set of disabled rules were
asked for, other than to recreate an order, since the last time it was
cleared. To recreate an order leaves every entry of any cache as it is, and
gives the same order whatever the cache holds. Specification, §4.1. -/
theorem order_cache_transparent (registries : List (Registry σ))
    (hids : (registries.map Registry.id).Nodup)
    (requests : List (OrderRequest σ))
    (hknown : ∀ q ∈ requests, ∀ r ∈ q.registry?, r ∈ registries) :
    (OrderCache.serveAll {} requests).2.map (Option.map StampedOrder.result) =
      requests.map OrderRequest.answer ∧
    (OrderCache.serveAll {} requests).1.size =
      (OrderRequest.pairs requests).card ∧
    ∀ (c c' : OrderCache) (r : Registry σ) (disabled : List RuleId),
      (c.serve (.provide r disabled true)).1.entries = c.entries ∧
      (c.serve (.provide r disabled true)).2.map StampedOrder.result =
        (c'.serve (.provide r disabled true)).2.map StampedOrder.result := by
  have hstart : OrderCache.Holds registries
      (OrderRequest.pairs ([] : List (OrderRequest σ))) {} :=
    OrderCache.holds_empty registries rfl
  obtain ⟨hholds, hanswers⟩ := hstart.serveAll hids requests [] hknown
  exact ⟨hanswers, hholds.size_eq, fun c c' r disabled => ⟨rfl, rfl⟩⟩

/-- Two registries with the same rules, which contradict each other: the
same disabled rules listed in another order and twice are the same pair, and
what was asked before the cache was cleared no longer counts. -/
theorem order_cache_transparent_two_registries :
    let a : Provider Unit :=
      .idle { id := "x:a", modifiers := [.runAfter "x:b" .regardless] }
    let b : Provider Unit :=
      .idle { id := "x:b", modifiers := [.runAfter "x:a" .regardless] }
    let r : Registry Unit := ⟨0, [("x:a", a), ("x:b", b)]⟩
    let r' : Registry Unit := ⟨1, [("x:a", a), ("x:b", b)]⟩
    let requests : List (OrderRequest Unit) :=
      [.get r [], .clear, .get r ["x:a", "x:c"], .provide r' [] false,
        .provide r ["x:b"] true,
        .get r ["x:c", "x:a", "x:c"]]
    (OrderCache.serveAll {} requests).2.map (Option.map StampedOrder.result) =
      requests.map OrderRequest.answer ∧
      (OrderCache.serveAll {} requests).1.size = 2 := by
  intro a b r r' requests
  obtain ⟨hanswers, hsize, -⟩ :=
    order_cache_transparent [r, r'] (by decide) requests
      (by simp [requests, OrderRequest.registry?])
  exact ⟨hanswers, hsize.trans rfl⟩

end TreeLint
