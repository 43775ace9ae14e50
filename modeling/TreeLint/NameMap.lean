/-!
# Maps from names

A map from names to values as a list of pairs in strictly increasing order
of the names. Names compare character by character, which is the order of
their bytes in UTF-8. Two maps with the same entries are the same list.

Registries, settings and the disabled rules are kept in such maps, so that
answers do not depend on the order in which entries came (specification, §8:
determinism).
-/

namespace TreeLint

/-- A map from names; see `NameMap.insert` for the order it is kept in. -/
abbrev NameMap (α : Type) := List (String × α)

namespace NameMap

/-- Give a name a value. The last value given to a name counts. -/
def insert {α : Type} (name : String) (value : α) : NameMap α → NameMap α
  | [] => [(name, value)]
  | (n, v) :: rest =>
    if name < n then (name, value) :: (n, v) :: rest
    else if name = n then (name, value) :: rest
    else (n, v) :: insert name value rest

def find? {α : Type} (name : String) : NameMap α → Option α
  | [] => none
  | (n, v) :: rest => if n = name then some v else find? name rest

def contains {α : Type} (name : String) (map : NameMap α) : Bool :=
  (find? name map).isSome

def names {α : Type} (map : NameMap α) : List String := map.map Prod.fst

def values {α : Type} (map : NameMap α) : List α := map.map Prod.snd

/-- A map from pairs; of equal names the last one counts. -/
def ofList {α : Type} (pairs : List (String × α)) : NameMap α :=
  pairs.foldl (fun map p => insert p.1 p.2 map) []

end NameMap

/-- Names in increasing order, each once. -/
def sortedNames (names : List String) : List String :=
  NameMap.names (NameMap.ofList (names.map fun n => (n, ())))

end TreeLint
