/-!
# Indented documents

A document is a scalar, a sequence or a mapping. A scalar is kept as its
text and whether it was written plain, without quotes: only a plain one can
stand for something else than a text.

A mapping may take over entries of others: `<<`, written plain, is no key
but names a mapping, or several, to take them from. `Node.resolve?` carries
that out and sees to it that a key is given once.

Settings can be given in this format (specification, §12).
-/

namespace TreeLint.Yaml

mutual

/-- A document: a scalar, plain or quoted, or a collection. -/
inductive Node where
  | scalar (plain : Bool) (text : String)
  | sequence (items : Nodes)
  | mapping (entries : Entries)

inductive Nodes where
  | nil
  | cons (item : Node) (rest : Nodes)

inductive Entries where
  | nil
  | cons (key value : Node) (rest : Entries)

end

/-- A place that holds nothing. -/
def Node.absent : Node := .scalar true ""

instance : Inhabited Node := ⟨Node.absent⟩

/-- The spellings of nothing: the empty text, a tilde, and the word whatever
its case. -/
def isNullText (s : String) : Bool :=
  s == "" || s == "~" || s.toList.map Char.toLower == "null".toList

/-- Whether a node is a plain scalar that spells nothing. -/
def Node.isNull : Node → Bool
  | .scalar true s => isNullText s
  | _ => false

/-- Whether a key stands for entries to take over. -/
def Node.isMerge : Node → Bool
  | .scalar true s => s == "<<"
  | _ => false

/-! ## Keys -/

mutual

/-- Whether two nodes are the same as keys: quotes make no difference. -/
def Node.sameKey : Node → Node → Bool
  | .scalar _ s, .scalar _ t => s == t
  | .sequence a, .sequence b => a.sameKeys b
  | .mapping a, .mapping b => a.sameKeys b
  | _, _ => false

def Nodes.sameKeys : Nodes → Nodes → Bool
  | .nil, .nil => true
  | .cons a r, .cons b s => a.sameKey b && r.sameKeys s
  | _, _ => false

def Entries.sameKeys : Entries → Entries → Bool
  | .nil, .nil => true
  | .cons k v r, .cons l w s => k.sameKey l && v.sameKey w && r.sameKeys s
  | _, _ => false

end

namespace Entries

def hasKey (key : Node) : Entries → Bool
  | .nil => false
  | .cons k _ r => key.sameKey k || r.hasKey key

def append : Entries → Entries → Entries
  | .nil, other => other
  | .cons k v r, other => .cons k v (r.append other)

/-- Whether every key is given once. -/
def distinct : Entries → Bool
  | .nil => true
  | .cons k _ r => !r.hasKey k && r.distinct

/-- Entries with those of others whose key they do not have, the first of
several. -/
def takeOver (own : Entries) : Entries → Entries
  | .nil => own
  | .cons k v r =>
    if own.hasKey k then own.takeOver r
    else (own.append (.cons k v .nil)).takeOver r

end Entries

/-! ## Taking over entries -/

mutual

/-- The entries that a node offers to be taken over: those of a mapping, or
of the mappings of a sequence. Nothing offers none. -/
def Node.offered? : Node → Option Entries
  | .scalar true s => if isNullText s then some .nil else none
  | .scalar false _ => none
  | .sequence items => items.offered?
  | .mapping entries => some entries

def Nodes.offered? : Nodes → Option Entries
  | .nil => some .nil
  | .cons n r =>
    match n.offered?, r.offered? with
    | some e, some f => some (e.append f)
    | _, _ => none

end

/-- Entries without the merge keys, and what the merge keys offer, the later
ones first. -/
def Entries.split? : Entries → Option (Entries × Entries)
  | .nil => some (.nil, .nil)
  | .cons k v r =>
    match r.split? with
    | none => none
    | some (own, offered) =>
      if k.isMerge then v.offered?.map fun e => (own, offered.append e)
      else some (.cons k v own, offered)

mutual

/-- A document whose mappings have each key once and have taken over what
their merge keys offer; none if a key is given twice or a merge key offers
no entries. -/
def Node.resolve? : Node → Option Node
  | .scalar plain s => some (.scalar plain s)
  | .sequence items => items.resolve?.map .sequence
  | .mapping entries =>
    match entries.resolve? with
    | none => none
    | some entries =>
      match entries.split? with
      | none => none
      | some (own, offered) =>
        if own.distinct then some (.mapping (own.takeOver offered)) else none

def Nodes.resolve? : Nodes → Option Nodes
  | .nil => some .nil
  | .cons n r =>
    match n.resolve?, r.resolve? with
    | some n, some r => some (.cons n r)
    | _, _ => none

def Entries.resolve? : Entries → Option Entries
  | .nil => some .nil
  | .cons k v r =>
    match k.resolve?, v.resolve?, r.resolve? with
    | some k, some v, some r => some (.cons k v r)
    | _, _, _ => none

end

end TreeLint.Yaml
