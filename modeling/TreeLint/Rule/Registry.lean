import TreeLint.Rule.OrderCache
import TreeLint.Rule.Provider

/-!
# Registries

A registry holds the rules an engine knows, in increasing order of their
identities. Identities and run-after targets are valid, and no identity
occurs twice.

Specification, §2 and §7: malformed and duplicate identities are rejected.
-/

namespace TreeLint

/-- Why rules cannot be put in a registry. -/
inductive RegistryError where
  | invalidRuleId (rule : RuleId)
  | invalidTarget (rule target : RuleId)
  | duplicate (rule : RuleId)
deriving DecidableEq, Repr

def RegistryError.message : RegistryError → String
  | .invalidRuleId rule => RuleId.invalidMessage rule
  | .invalidTarget rule target =>
    s!"rule '{rule}' runs after '{target}', which is not a valid rule id"
  | .duplicate rule => s!"rule id '{rule}' is provided more than once"

/-- The rules an engine knows. -/
structure Registry (σ : Type) where
  id : RegistryId
  providers : NameMap (Provider σ)

namespace Registry

/-- Add a rule. The identity is checked first, then the targets in order,
then whether it is new. Specification, §7. -/
def add {σ : Type} (map : NameMap (Provider σ)) (p : Provider σ) :
    Except RegistryError (NameMap (Provider σ)) :=
  if !RuleId.isValid p.id then .error (.invalidRuleId p.id)
  else match p.targets.find? fun t => !RuleId.isValid t with
    | some target => .error (.invalidTarget p.id target)
    | none =>
      if NameMap.contains p.id map then .error (.duplicate p.id)
      else .ok (NameMap.insert p.id p map)

/-- A registry of some rules. -/
def ofProviders {σ : Type} (id : RegistryId) (providers : List (Provider σ)) :
    Except RegistryError (Registry σ) :=
  match providers.foldlM add [] with
  | .ok map => .ok ⟨id, map⟩
  | .error e => .error e

def size {σ : Type} (r : Registry σ) : Nat := r.providers.length

def isEmpty {σ : Type} (r : Registry σ) : Bool := r.providers.isEmpty

def find? {σ : Type} (r : Registry σ) (id : RuleId) : Option (Provider σ) :=
  NameMap.find? id r.providers

/-- The identities in increasing order. -/
def ids {σ : Type} (r : Registry σ) : List RuleId := NameMap.names r.providers

/-- What the rules say about themselves. -/
def infos {σ : Type} (r : Registry σ) : List RuleInfo :=
  r.providers.map fun p => p.2.toRuleInfo

/-- The rules that do not run under some settings, in increasing order.
Specification, §4.4. -/
def disabled {σ : Type} (r : Registry σ) (s : Settings) : List RuleId :=
  (r.infos.filter fun i => !i.isActive s).map RuleInfo.id

end Registry

end TreeLint
