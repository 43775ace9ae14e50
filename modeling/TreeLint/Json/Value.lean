import TreeLint.Json.Number

/-!
# Values of the data format

Free-form values of settings. The members of an object are kept in the order
of their names, each name once, so equal values are equal terms.

Options of rules and free-form properties are such values (specification,
§12).
-/

namespace TreeLint.Json

mutual

/-- A free-form value. -/
inductive Value where
  | null
  | bool (b : Bool)
  | number (n : Number)
  | text (s : String)
  | array (items : Items)
  | object (members : Members)
deriving DecidableEq

/-- The items of an array. -/
inductive Items where
  | nil
  | cons (item : Value) (rest : Items)
deriving DecidableEq

/-- The members of an object. -/
inductive Members where
  | nil
  | cons (name : String) (value : Value) (rest : Members)
deriving DecidableEq

end

instance : Inhabited Value := ⟨.null⟩

namespace Items

def toList : Items → List Value
  | .nil => []
  | .cons v r => v :: r.toList

def ofList : List Value → Items
  | [] => .nil
  | v :: vs => .cons v (ofList vs)

end Items

namespace Members

/-- Give a name a value; the last value given to a name counts. -/
def insert (name : String) (value : Value) : Members → Members
  | .nil => .cons name value .nil
  | .cons n v r =>
    if name < n then .cons name value (.cons n v r)
    else if name = n then .cons name value r
    else .cons n v (r.insert name value)

def find? (name : String) : Members → Option Value
  | .nil => none
  | .cons n v r => if n = name then some v else r.find? name

def toList : Members → List (String × Value)
  | .nil => []
  | .cons n v r => (n, v) :: r.toList

/-- Members from pairs; of equal names the last one counts. -/
def ofList (pairs : List (String × Value)) : Members :=
  pairs.foldl (fun ms p => ms.insert p.1 p.2) .nil

end Members

namespace Value

/-- The integer a value is. -/
def int? : Value → Option Int
  | .number (.int i) => some i
  | _ => none

/-- The integer from zero below a bound that a value is. -/
def natBelow? (bound : Nat) (v : Value) : Option Nat :=
  v.int?.bind fun i => if 0 ≤ i ∧ i < bound then some i.toNat else none

def bool? : Value → Option Bool
  | .bool b => some b
  | _ => none

def text? : Value → Option String
  | .text s => some s
  | _ => none

/-- The list of texts a value is. -/
def texts? : Value → Option (List String)
  | .array items => items.toList.mapM text?
  | _ => none

/-- The value of a member of an object. -/
def member? (name : String) : Value → Option Value
  | .object members => members.find? name
  | _ => none

/-- A natural number as a value. -/
def ofNat (n : Nat) : Value := .number (.int n)

end Value

end TreeLint.Json
