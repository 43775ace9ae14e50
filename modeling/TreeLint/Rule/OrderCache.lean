import TreeLint.Rule.Order

/-!
# Remembered orders

Sorting the same rules with the same ones disabled gives the same order, so
it is worked out once and remembered, contradictions included. Each
remembered result has a stamp of its own: two answers with the same stamp
are one result handed out twice.

Specification, §4.1 on caching, with the flag that asks for a fresh result
and leaves the remembered one alone.
-/

namespace TreeLint

/-- The identity of a registry; different registries have different ones. -/
abbrev RegistryId := Nat

/-- What a result is remembered under. Specification, §4.1. -/
structure OrderKey where
  registry : RegistryId
  /-- The disabled rules in increasing order, each once. -/
  disabled : List RuleId
deriving DecidableEq, Repr

/-- A result with its stamp. -/
structure StampedOrder where
  stamp : Nat
  result : Except OrderError (List RuleInfo)

/-- Remembered results. -/
structure OrderCache where
  entries : List (OrderKey × StampedOrder) := []
  /-- The next stamp; stamps are never used again. -/
  next : Nat := 0

namespace OrderCache

/-- The number of keys with a remembered result. -/
def size (c : OrderCache) : Nat := c.entries.length

def isEmpty (c : OrderCache) : Bool := c.entries.isEmpty

/-- Forget every result. -/
def clear (c : OrderCache) : OrderCache := { c with entries := [] }

/-- What is remembered under a key. -/
def find? (c : OrderCache) (key : OrderKey) : Option StampedOrder :=
  (c.entries.find? fun e => e.1 == key).map Prod.snd

/-- Work out a result without remembering it. -/
def compute (c : OrderCache) (rules : List RuleInfo) (disabled : List RuleId) :
    OrderCache × StampedOrder :=
  ({ c with next := c.next + 1 }, ⟨c.next, RuleInfo.sort rules disabled⟩)

/-- The result for the rules of a registry, worked out unless it is
remembered. Specification, §4.1. -/
def get (c : OrderCache) (registry : RegistryId) (rules : List RuleInfo)
    (disabled : List RuleId) :
    OrderCache × StampedOrder :=
  let key : OrderKey := ⟨registry, sortedNames disabled⟩
  match c.find? key with
  | some stamped => (c, stamped)
  | none =>
    let (c, stamped) := c.compute rules disabled
    ({ c with entries := c.entries ++ [(key, stamped)] }, stamped)

/-- The result for the rules of a registry. With `recreate` nothing
remembered is looked at or changed. Specification, §4.1. -/
def resolve (c : OrderCache) (registry : RegistryId) (rules : List RuleInfo)
    (disabled : List RuleId) (recreate : Bool) : OrderCache × StampedOrder :=
  if recreate then c.compute rules disabled else c.get registry rules disabled

end OrderCache

end TreeLint
