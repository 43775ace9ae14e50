import TreeLint.Yaml.Node
import TreeLint.Yaml.Token

/-!
# Reading indented documents

A text is read as one document. Once that has ended, whatever stands behind
it is of no interest, unless it starts another document: then the text is
refused, as it is if it breaks before the end.

Used to load settings (specification, §12).
-/

namespace TreeLint.Yaml

/-- Whether nothing stands where the value or the key of a block mapping
could. -/
def endsBlockPart : List Token → Bool
  | .key :: _ | .value :: _ | .blockEnd :: _ => true
  | _ => false

/-- Whether nothing stands where an entry of a block sequence could. -/
def endsBlockEntry : List Token → Bool
  | .blockEntry :: _ => true
  | ts => endsBlockPart ts

/-- Whether nothing stands where the value of a flow mapping could. -/
def endsFlowPart : List Token → Bool
  | .flowEntry :: _ | .flowMappingEnd :: _ => true
  | _ => false

mutual

/-- Read a node and what follows it. With `block` it may be a block
collection, with `dashes` also a sequence without a level of its own. -/
def readNode? (block dashes : Bool) :
    Nat → List Token → Option (Node × List Token)
  | 0, _ => none
  | fuel + 1, ts =>
    match ts with
    | .scalar plain text :: rest => some (.scalar plain text, rest)
    | .flowSequence :: rest =>
      (readFlowItems? true fuel rest).map fun (items, rest) =>
        (.sequence items, rest)
    | .flowMapping :: rest =>
      (readFlowEntries? true fuel rest).map fun (entries, rest) =>
        (.mapping entries, rest)
    | .blockSequence :: rest =>
      if block then
        (readBlockItems? fuel rest).map fun (items, rest) =>
          (.sequence items, rest)
      else
        none
    | .blockMapping :: rest =>
      if block then (readBlockEntries? fuel rest).map fun (entries, rest) =>
        (.mapping entries, rest)
      else none
    | .blockEntry :: _ =>
      if dashes then
        (readDashes? fuel ts).map fun (items, rest) => (.sequence items, rest)
      else
        none
    | _ => none

/-- Read the entries of a block sequence to its end. -/
def readBlockItems? : Nat → List Token → Option (Nodes × List Token)
  | 0, _ => none
  | fuel + 1, ts =>
    match ts with
    | .blockEnd :: rest => some (.nil, rest)
    | .blockEntry :: rest =>
      match (match rest with
        | .blockEntry :: _ | .blockEnd :: _ => some (.absent, rest)
        | _ => readNode? true false fuel rest) with
      | none => none
      | some (item, rest) =>
        (readBlockItems? fuel rest).map fun (items, rest) =>
          (.cons item items, rest)
    | _ => none

/-- Read the entries of a sequence without a level of its own, which ends
with the last dash. -/
def readDashes? : Nat → List Token → Option (Nodes × List Token)
  | 0, _ => none
  | fuel + 1, ts =>
    match ts with
    | .blockEntry :: rest =>
      match (if endsBlockEntry rest then some (.absent, rest)
          else readNode? true false fuel rest) with
      | none => none
      | some (item, rest) =>
        (readDashes? fuel rest).map fun (items, rest) =>
          (.cons item items, rest)
    | _ => some (.nil, ts)

/-- Read the entries of a block mapping to its end. -/
def readBlockEntries? : Nat → List Token → Option (Entries × List Token)
  | 0, _ => none
  | fuel + 1, ts =>
    let valued (key : Node) (ts : List Token) : Option (Entries × List Token) :=
      match (match ts with
        | .value :: rest =>
          if endsBlockPart rest then some (.absent, rest)
          else readNode? true true fuel rest
        | _ => some (.absent, ts)) with
      | none => none
      | some (value, rest) =>
        (readBlockEntries? fuel rest).map fun (entries, rest) =>
          (.cons key value entries, rest)
    match ts with
    | .blockEnd :: rest => some (.nil, rest)
    | .value :: _ => valued .absent ts
    | .key :: rest =>
      if endsBlockPart rest then valued .absent rest
      else
        match readNode? true true fuel rest with
        | none => none
        | some (key, rest) => valued key rest
    | _ => none

/-- Read the entries of a flow sequence to its end. -/
def readFlowItems? (first : Bool) :
    Nat → List Token → Option (Nodes × List Token)
  | 0, _ => none
  | fuel + 1, ts =>
    let item (ts : List Token) : Option (Nodes × List Token) :=
      match readNode? false false fuel ts with
      | none => none
      | some (item, rest) =>
        (readFlowItems? false fuel rest).map fun (items, rest) =>
          (.cons item items, rest)
    match ts with
    | .flowSequenceEnd :: rest => some (.nil, rest)
    | .flowEntry :: .flowSequenceEnd :: rest =>
      if first then none else some (.nil, rest)
    | .flowEntry :: rest => if first then none else item rest
    | _ => if first then item ts else none

/-- Read the entries of a flow mapping to its end. -/
def readFlowEntries? (first : Bool) :
    Nat → List Token → Option (Entries × List Token)
  | 0, _ => none
  | fuel + 1, ts =>
    let more (key value : Node) (ts : List Token) :
        Option (Entries × List Token) :=
      (readFlowEntries? false fuel ts).map fun (entries, rest) =>
        (.cons key value entries, rest)
    let valued (key : Node) (ts : List Token) : Option (Entries × List Token) :=
      match ts with
      | .value :: rest =>
        if endsFlowPart rest then more key .absent rest
        else
          match readNode? false false fuel rest with
          | none => none
          | some (value, rest) => more key value rest
      | _ => more key .absent ts
    let entry (ts : List Token) : Option (Entries × List Token) :=
      match ts with
      | .flowMappingEnd :: rest => some (.nil, rest)
      | .value :: _ => valued .absent ts
      | .key :: .value :: rest => valued .absent (.value :: rest)
      | .key :: rest =>
        if endsFlowPart rest then valued .absent rest
        else
          match readNode? false false fuel rest with
          | none => none
          | some (key, rest) => valued key rest
      | _ =>
        match readNode? false false fuel ts with
        | none => none
        | some (key, rest) => more key .absent rest
    match ts with
    | .flowMappingEnd :: rest => some (.nil, rest)
    | .flowEntry :: rest => if first then none else entry rest
    | _ => if first then entry ts else none

end

/-- Whether a document may end here: the text does not break, and no other
document starts. -/
def endsDocument : List Token → Bool
  | [] | .broken :: _ | .documentStart :: _ => false
  | .documentEnd :: rest =>
    match rest.dropWhile (· == .documentEnd) with
    | .finish :: _ | .broken :: _ => true
    | _ => false
  | _ => true

/-- Whether a document that was started holds nothing. -/
def isEmptyDocument : List Token → Bool
  | .documentStart :: _ | .documentEnd :: _ | .finish :: _ => true
  | _ => false

/-- Read the only document of a text; one that holds nothing if there is
none. -/
def read? (text : String) : Option Node :=
  let ts := (Token.all text).dropWhile (· == .documentEnd)
  let content (ts : List Token) : Option (Node × List Token) :=
    readNode? true false (2 * ts.length + 2) ts
  let document :=
    match ts with
    | .finish :: _ => some (.absent, ts)
    | .documentStart :: rest =>
      if isEmptyDocument rest then some (.absent, rest) else content rest
    | _ => content ts
  match document with
  | some (node, rest) => if endsDocument rest then some node else none
  | none => none

end TreeLint.Yaml
