import LayeredConfig.Yaml.Node
import LayeredConfig.Yaml.Token.Lexer
import LayeredConfig.Yaml.Value

/-!
# The document of a list of tokens, and its value

The nodes of a document follow from its tokens by the grammar of YAML, and the value of a text from
the nodes.
-/

namespace LayeredConfig.Yaml

/-!
## Nodes

The grammar of YAML over tokens. A stream holds at most one document, which may begin with
directives; where a node may be left out, an empty scalar stands for it. A block sequence that is
the value of a key need not be indented, so it ends without a token of its own.
-/

/-- What the handles of tags stand for. -/
abbrev Handles := List (Text × Bytes)

/-- The meaning of the handles that need no directive. -/
def defaultHandles : Handles :=
  [(['!'], Utf8.encode ['!']), (['!', '!'], Utf8.encode "tag:yaml.org,2002:".toList)]

/-- The tag that a handle and a suffix stand for, unless the handle is unknown. -/
def Handles.resolve? (handles : Handles) (handle : Text) (suffix : Bytes) : Option Bytes :=
  if handle = [] then some suffix else (handles.lookup handle).map (· ++ suffix)

/-- The label and the tag before a node, in either order, and the tokens after them. -/
def readProperties? (handles : Handles) :
    List Token → Option (Properties Text × List Token)
  | .anchor name :: .tag handle suffix :: rest =>
    (handles.resolve? handle suffix).map fun tag => (⟨some name, some tag⟩, rest)
  | .tag handle suffix :: .anchor name :: rest =>
    (handles.resolve? handle suffix).map fun tag => (⟨some name, some tag⟩, rest)
  | .anchor name :: rest => some (⟨some name, none⟩, rest)
  | .tag handle suffix :: rest =>
    (handles.resolve? handle suffix).map fun tag => (⟨none, some tag⟩, rest)
  | rest => some (⟨none, none⟩, rest)

/-- The lone tag leaves it to the scalar what it is. -/
def scalarTag (tag : Option Bytes) : Option Bytes :=
  if tag = some (Utf8.encode ['!']) then none else tag

/-- Whether a list of tokens begins with one of those that end an empty node in a block
mapping. -/
def endsBlockValue : List Token → Bool
  | .key :: _ => true
  | .value :: _ => true
  | .blockEnd :: _ => true
  | _ => false

mutual

/-- A node and the tokens after it. Block collections may only stand where `inBlock` holds, and
a block sequence without indentation only where `unindented` holds. The fuel bounds the number of
steps. -/
def readNode? (handles : Handles) :
    (fuel : Nat) → (inBlock unindented : Bool) → List Token → Option (Node Text × List Token)
  | 0, _, _, _ => none
  | _ + 1, _, _, .alias name :: rest => some (.reference name, rest)
  | fuel + 1, inBlock, unindented, tokens => do
    let (properties, tokens) ← readProperties? handles tokens
    match tokens with
    | .blockEntry :: rest =>
      if unindented then do
        let (items, rest) ← readUnindented? handles fuel (.blockEntry :: rest)
        return (.sequence properties items, rest)
      else emptyNode? properties tokens
    | .scalar plain text :: rest =>
      some (.scalar ⟨properties.label, scalarTag properties.tag⟩ plain text, rest)
    | .flowSequenceStart :: rest => do
      let (items, rest) ← readFlowItems? handles fuel true rest
      return (.sequence properties items, rest)
    | .flowMappingStart :: rest => do
      let (pairs, rest) ← readFlowPairs? handles fuel true rest
      return (.mapping properties pairs, rest)
    | .blockSequenceStart :: rest =>
      if inBlock then do
        let (items, rest) ← readBlockItems? handles fuel rest
        return (.sequence properties items, rest)
      else emptyNode? properties tokens
    | .blockMappingStart :: rest =>
      if inBlock then do
        let (pairs, rest) ← readBlockPairs? handles fuel rest
        return (.mapping properties pairs, rest)
      else emptyNode? properties tokens
    | _ => emptyNode? properties tokens

/-- A node that has a label or a tag and nothing else. -/
def emptyNode? (properties : Properties Text) (tokens : List Token) :
    Option (Node Text × List Token) :=
  if properties.label.isSome ∨ properties.tag.isSome then
    some (.scalar properties true [], tokens)
  else none

/-- The items of a block sequence, and the tokens after its end. -/
def readBlockItems? (handles : Handles) :
    (fuel : Nat) → List Token → Option (List (Node Text) × List Token)
  | 0, _ => none
  | fuel + 1, tokens =>
    match tokens with
    | .blockEnd :: rest => some ([], rest)
    | .blockEntry :: rest => do
      let (item, rest) ←
        match rest with
        | .blockEntry :: _ => some (Node.empty, rest)
        | .blockEnd :: _ => some (Node.empty, rest)
        | _ => readNode? handles fuel true false rest
      let (items, rest) ← readBlockItems? handles fuel rest
      return (item :: items, rest)
    | _ => none

/-- The items of a block sequence without indentation, and the tokens after them. -/
def readUnindented? (handles : Handles) :
    (fuel : Nat) → List Token → Option (List (Node Text) × List Token)
  | 0, _ => none
  | fuel + 1, tokens =>
    match tokens with
    | .blockEntry :: rest => do
      let (item, rest) ←
        match rest with
        | .blockEntry :: _ => some (Node.empty, rest)
        | _ =>
          if endsBlockValue rest then some (Node.empty, rest)
          else readNode? handles fuel true false rest
      let (items, rest) ← readUnindented? handles fuel rest
      return (item :: items, rest)
    | _ => some ([], tokens)

/-- The pairs of a block mapping, and the tokens after its end. -/
def readBlockPairs? (handles : Handles) :
    (fuel : Nat) → List Token → Option (List (Node Text × Node Text) × List Token)
  | 0, _ => none
  | fuel + 1, tokens =>
    match tokens with
    | .blockEnd :: rest => some ([], rest)
    | .key :: rest => do
      let (key, rest) ←
        if endsBlockValue rest then some (Node.empty, rest)
        else readNode? handles fuel true true rest
      let (value, rest) ←
        match rest with
        | .value :: rest =>
          if endsBlockValue rest then some (Node.empty, rest)
          else readNode? handles fuel true true rest
        | _ => some (Node.empty, rest)
      let (pairs, rest) ← readBlockPairs? handles fuel rest
      return ((key, value) :: pairs, rest)
    | _ => none

/-- The items of a sequence in brackets, and the tokens after its end. A comma stands before
every item but the first. An item can be a single pair. -/
def readFlowItems? (handles : Handles) :
    (fuel : Nat) → (first : Bool) → List Token → Option (List (Node Text) × List Token)
  | 0, _, _ => none
  | fuel + 1, first, tokens =>
    match tokens with
    | .flowSequenceEnd :: rest => some ([], rest)
    | _ => do
      let tokens ←
        match first, tokens with
        | true, _ => some tokens
        | false, .flowEntry :: rest => some rest
        | false, _ => none
      match tokens with
      | .flowSequenceEnd :: rest => return ([], rest)
      | .key :: rest =>
        let (pair, rest) ← readSinglePair? handles fuel rest
        let (items, rest) ← readFlowItems? handles fuel false rest
        return (.mapping ⟨none, none⟩ [pair] :: items, rest)
      | _ =>
        let (item, rest) ← readNode? handles fuel false false tokens
        let (items, rest) ← readFlowItems? handles fuel false rest
        return (item :: items, rest)

/-- A single pair within a sequence in brackets after the mark of its key, and the tokens after
it. A key that is left out takes the token in its place with it. -/
def readSinglePair? (handles : Handles) :
    (fuel : Nat) → List Token → Option ((Node Text × Node Text) × List Token)
  | 0, _ => none
  | fuel + 1, tokens => do
    let (key, rest) ←
      match tokens with
      | .value :: rest => some (Node.empty, rest)
      | .flowEntry :: rest => some (Node.empty, rest)
      | .flowSequenceEnd :: rest => some (Node.empty, rest)
      | _ => readNode? handles fuel false false tokens
    match rest with
    | .value :: rest =>
      match rest with
      | .flowEntry :: _ => return ((key, Node.empty), rest)
      | .flowSequenceEnd :: _ => return ((key, Node.empty), rest)
      | _ =>
        let (value, rest) ← readNode? handles fuel false false rest
        return ((key, value), rest)
    | _ => return ((key, Node.empty), rest)

/-- The pairs of a mapping in braces, and the tokens after its end. A comma stands before every
pair but the first. A key without a mark has no value. -/
def readFlowPairs? (handles : Handles) :
    (fuel : Nat) → (first : Bool) → List Token →
      Option (List (Node Text × Node Text) × List Token)
  | 0, _, _ => none
  | fuel + 1, first, tokens =>
    match tokens with
    | .flowMappingEnd :: rest => some ([], rest)
    | _ => do
      let tokens ←
        match first, tokens with
        | true, _ => some tokens
        | false, .flowEntry :: rest => some rest
        | false, _ => none
      match tokens with
      | .flowMappingEnd :: rest => return ([], rest)
      | .key :: rest =>
        let (key, rest) ←
          match rest with
          | .value :: _ => some (Node.empty, rest)
          | .flowEntry :: _ => some (Node.empty, rest)
          | .flowMappingEnd :: _ => some (Node.empty, rest)
          | _ => readNode? handles fuel false false rest
        let (value, rest) ←
          match rest with
          | .value :: rest =>
            match rest with
            | .flowEntry :: _ => some (Node.empty, rest)
            | .flowMappingEnd :: _ => some (Node.empty, rest)
            | _ => readNode? handles fuel false false rest
          | _ => some (Node.empty, rest)
        let (pairs, rest) ← readFlowPairs? handles fuel false rest
        return ((key, value) :: pairs, rest)
      | _ =>
        let (key, rest) ← readNode? handles fuel false false tokens
        let (pairs, rest) ← readFlowPairs? handles fuel false rest
        return ((key, Node.empty) :: pairs, rest)

end

/-! ### Documents -/

/-- Whether a version is one that this grammar is for. -/
def isKnownVersion (major minor : Nat) : Bool :=
  major = 1 && (minor = 1 || minor = 2)

/-- The directives before a document: whether a version was declared, the handles, and the tokens
after them. A version and each handle may be declared once. -/
def readDirectives? : (versioned : Bool) → (handles : Handles) → List Token →
    Option (Handles × List Token)
  | versioned, handles, .version major minor :: rest =>
    if versioned ∨ !isKnownVersion major minor then none
    else readDirectives? true handles rest
  | versioned, handles, .tagHandle handle meaning :: rest =>
    if (handles.lookup handle).isSome then none
    else readDirectives? versioned ((handle, meaning) :: handles) rest
  | _, handles, rest => some (handles, rest)

/-- Whether a list of tokens begins with a directive or the marker of the start of a document. -/
def startsExplicitly : List Token → Bool
  | .version .. :: _ => true
  | .tagHandle .. :: _ => true
  | .documentStart :: _ => true
  | _ => false

/-- The root of a document that has begun, and the tokens after it. -/
def readRoot? (handles : Handles) (tokens : List Token) : Option (Node Text × List Token) :=
  match tokens with
  | [] => some (Node.empty, [])
  | .documentEnd :: rest => some (Node.empty, .documentEnd :: rest)
  | _ =>
    if startsExplicitly tokens then some (Node.empty, tokens)
    else readNode? (handles ++ defaultHandles) (4 * tokens.length + 4) true false tokens

/-- Whether nothing but markers of the end of a document follows. -/
def onlyEnds (tokens : List Token) : Bool :=
  tokens.all fun token => token = .documentEnd

/-- The root of the only document of a list of tokens; no document at all is an empty one. -/
def document? (tokens : List Token) : Option (Node Text) := do
  let (root, rest) ←
    match tokens with
    | [] => some (Node.empty, [])
    | _ =>
      if startsExplicitly tokens then do
        let (handles, rest) ← readDirectives? false [] tokens
        match rest with
        | .documentStart :: rest => readRoot? handles rest
        | _ => none
      else readNode? defaultHandles (4 * tokens.length + 4) true false tokens
  if onlyEnds rest then some root else none

/-!
## Values

References are replaced by what they refer to, scalars by what they are. Collections may be nested
128 deep, following references; so a node that refers to itself has no value. The number of
references that are followed is bounded by a hundred for each mark of the document. No key may
occur twice in a mapping.
-/

/-- How deep collections may be nested. -/
def deepest : Nat := 128

/-- The number of references that may be followed for each mark of a document. -/
def referencesPerMark : Nat := 100

/-- A value, with the number of references that may still be followed. -/
abbrev Counted (α : Type) := StateT Nat Option α

/-- Follows a reference. -/
def follow (targets : List (Nat × Node Nat)) : Node Nat → Counted (Node Nat)
  | .reference label => fun left =>
    match left, targets.lookup label with
    | left + 1, some target => some (target, left)
    | _, _ => none
  | node => pure node

/-- The name of a local tag. The lone tag, which a collection or an empty node can have, is its own
name. -/
def localTag? (tag : Option Bytes) : Option Text := do
  match ← tag with
  | [0x21] => some ['!']
  | 0x21 :: octets => Utf8.decode? octets
  | _ => none

/-- Whether none of the keys is the same as another one before it. -/
def keysDiffer : List (Value × Value) → Bool
  | [] => true
  | (key, _) :: rest => rest.all (fun (k, _) => !Value.same key k) && keysDiffer rest

/-- A value with its local tag, if it has one. -/
def withTag (tag : Option Text) (value : Value) : Value :=
  match tag with
  | some name => .tagged name value
  | none => value

/-- The value of a node that is no reference. Where its own tag is to be ignored, so are the tags
of its keys; the keys of a mapping with a local tag are read in the same way. -/
def valueOf (targets : List (Nat × Node Nat)) :
    (depth : Nat) → (ignoreTag : Bool) → Node Nat → Counted Value
  | _, _, .reference _ => fun _ => none
  | _, ignoreTag, .scalar properties plain text =>
    let tag := if ignoreTag then none else properties.tag
    match localTag? tag, tag with
    | some name, _ => fun left => (scalarValue? plain text).map fun v => (.tagged name v, left)
    | none, some tag => fun left => (taggedScalar? tag plain text).map fun v => (v, left)
    | none, none => fun left => (scalarValue? plain text).map fun v => (v, left)
  | 0, _, .sequence .. => fun _ => none
  | 0, _, .mapping .. => fun _ => none
  | depth + 1, ignoreTag, .sequence properties items => do
    let tag := if ignoreTag then none else localTag? properties.tag
    let values ← items.mapM fun item => do
      valueOf targets depth false (← follow targets item)
    return withTag tag (.sequence values)
  | depth + 1, ignoreTag, .mapping properties pairs => do
    let tag := if ignoreTag then none else localTag? properties.tag
    let values ← pairs.mapM fun (key, value) => do
      let ignoreKeyTag :=
        match key with
        | .reference _ => false
        | _ => ignoreTag || tag.isSome
      let k ← valueOf targets depth ignoreKeyTag (← follow targets key)
      let v ← valueOf targets depth false (← follow targets value)
      return (k, v)
    if keysDiffer values then return withTag tag (.mapping values) else fun _ => none

/-- The value of a text, unless it is no YAML text or has no value. -/
def read? (text : Text) : Option Value := do
  let tokens ← tokens? text
  let root ← document? tokens
  let (root, _) ← root.number []
  let targets := root.labelled.reverse
  let (target, left) ← follow targets root (referencesPerMark * root.marks)
  let (value, _) ← valueOf targets deepest false target left
  return value

end LayeredConfig.Yaml
