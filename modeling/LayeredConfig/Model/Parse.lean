import LayeredConfig.Json.Reader
import LayeredConfig.Model.File
import LayeredConfig.Properties.Reader
import LayeredConfig.Tree.Key
import LayeredConfig.Yaml.Document

/-!
# The tree of a model file

The content of a model file in each of the formats, as a configuration tree. The file is named
only for the message of an error.
-/

namespace LayeredConfig

/-!
## The tree of a JSON object

Members become entries under the same keys. An object becomes a nested tree, and every other
value becomes a scalar: an array is the text of its items joined by commas, in which `null` is
the empty text. A member that is `null` is left out. Only scalars may stand in an array.
-/

namespace Json

/-- The text of a truth value. -/
def boolText : Bool → Text
  | true => "true".toList
  | false => "false".toList

/-- The text of an item of an array. -/
def itemText : Value → Except ModelFault Text
  | .null => .ok []
  | .bool value => .ok (boolText value)
  | .number value => .ok (value.text floatStyle)
  | .string text => .ok text
  | .array _ => .error .nestedSequence
  | .object _ => .error .nestedSequence

mutual

/-- The node of a value, if the value is not null. -/
def node? : Value → Except ModelFault (Option Node)
  | .null => .ok none
  | .bool value => .ok (some (.scalar (boolText value)))
  | .number value => .ok (some (.scalar (value.text floatStyle)))
  | .string text => .ok (some (.scalar text))
  | .array items => do
    let texts ← items.mapM itemText
    return some (.scalar (Text.join [','] texts))
  | .object members => do
    let entries ← treeInto [] members
    return some (.branch entries)

/-- A tree with the nodes of members added to it. -/
def treeInto (tree : Tree) : List (Text × Value) → Except ModelFault Tree
  | [] => .ok tree
  | (name, value) :: rest => do
    match ← node? value with
    | some node => treeInto (Entries.insert name node tree) rest
    | none => treeInto tree rest

end

/-- The tree of an object. -/
def tree (members : Members) : Except ModelFault Tree :=
  treeInto [] members

end Json

/-!
## The tree of a YAML mapping

Pairs become entries: a key is a string, a number or a truth value, and its text is the key of
the entry. A mapping becomes a nested tree, and every other value becomes a scalar as in JSON;
local tags do not count. A pair whose value is null is left out, but its key has to be fit to be
a key all the same.
-/

namespace Yaml

/-- The text of a key. -/
def keyText : Value → Except ModelFault Text
  | .string text => .ok text
  | .number value => .ok (value.text floatStyle)
  | .bool value => .ok (Value.boolText value)
  | other => .error (.unsupportedKey other.shown)

/-- The text of an item of a sequence. -/
def itemText : Value → Except ModelFault Text
  | .null => .ok []
  | .bool value => .ok (Value.boolText value)
  | .number value => .ok (value.text floatStyle)
  | .string text => .ok text
  | .sequence _ => .error .nestedSequence
  | .mapping _ => .error .nestedSequence
  | .tagged _ value => itemText value

mutual

/-- The node of a value, if the value is not null. -/
def node? : Value → Except ModelFault (Option LayeredConfig.Node)
  | .null => .ok none
  | .bool value => .ok (some (.scalar (Value.boolText value)))
  | .number value => .ok (some (.scalar (value.text floatStyle)))
  | .string text => .ok (some (.scalar text))
  | .sequence items => do
    let texts ← items.mapM itemText
    return some (.scalar (Text.join [','] texts))
  | .mapping pairs => do
    let entries ← treeInto [] pairs
    return some (.branch entries)
  | .tagged _ value => node? value

/-- A tree with the nodes of pairs added to it. -/
def treeInto (tree : Tree) : List (Value × Value) → Except ModelFault Tree
  | [] => .ok tree
  | (key, value) :: rest => do
    let name ← keyText key
    match ← node? value with
    | some node => treeInto (Entries.insert name node tree) rest
    | none => treeInto tree rest

end

/-- The tree of a mapping. -/
def tree (pairs : List (Value × Value)) : Except ModelFault Tree :=
  treeInto [] pairs

end Yaml

/-! ## The tree of a file -/

/-- The tree of a JSON file. Well-formedness is judged before the kind of the value. -/
def Json.parse (content : Text) : Except ModelFault Tree :=
  match Json.read? content with
  | none => .error .malformed
  | some (.object members) => Json.tree members
  | some _ => .error .topLevel

/-- The tree of a YAML file. A document that is empty or null is an empty tree. -/
def Yaml.parse (content : Text) : Except ModelFault Tree :=
  match Yaml.read? content with
  | none => .error .malformed
  | some .null => .ok []
  | some (.mapping pairs) => Yaml.tree pairs
  | some _ => .error .topLevel

/-- The tree of the content of a file. -/
def FileFormat.parse (format : FileFormat) (file content : Text) : Except Error Tree :=
  match format with
  | .json => (Json.parse content).mapError (Error.modelParse file)
  | .yaml => (Yaml.parse content).mapError (Error.modelParse file)
  | .properties =>
    match Properties.read? content with
    | none => .error (.modelParse file .malformed)
    | some pairs => Properties.tree pairs

end LayeredConfig
