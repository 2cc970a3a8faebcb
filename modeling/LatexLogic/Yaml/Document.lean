import LatexLogic.Text.Line
import LatexLogic.Yaml.Checked
import LatexLogic.Yaml.Merge
import LatexLogic.Yaml.Scalar

/-!
# YAML documents

The plain value that a document describes. A quoted scalar is a text, a plain scalar is what it
looks like, and a tag can ask for one or the other. Keys of a mapping are scalars; the first of
several equal keys gives the position and the last one the value.

A value may contain itself, by a reference that leads back to a collection around it. It is written
out until it stands inside itself, and a mark is left there. The outermost mapping and the mappings
directly in it are taken apart by those who read the document, so their parts are written out one by
one, each as if it stood alone.
-/

set_option autoImplicit false

namespace LatexLogic.Yaml

namespace Node

/-- The text of a scalar. A mapping with a default value counts as that value. -/
def textWithin : (bound : Nat) → Node → Option String
  | _, .scalar _ text => some text
  | bound + 1, .mapping _ _ entries =>
    match entries.find? fun entry => entry.1.meaning = .defaultKey with
    | some entry => textWithin bound entry.2
    | none => none
  | _, _ => none

end Node

/-- Where a value is being made. -/
structure Surroundings where
  /-- How many collections stand around it. -/
  depth : Nat
  /-- How many of the mappings next inside are taken apart. -/
  apart : Nat
  /-- The numbers of the collections around it that are being written out. -/
  written : List Nat

namespace Surroundings

/-- Outside of all collections. -/
def outermost : Surroundings := ⟨0, 2, []⟩

/-- Inside a collection. -/
def inside (s : Surroundings) (node : Node) : Surroundings :=
  match node, s.apart with
  | .mapping _ _ _, apart + 1 => { s with depth := s.depth + 1, apart := apart }
  | _, _ => ⟨s.depth + 1, 0, node.number?.toList ++ s.written⟩

end Surroundings

/-- A mapping made of entries in the order in which they were read. -/
def mappingOf (entries : List (Data × Data)) : Data :=
  .map (entries.foldl (fun es e => insertKeyed Data.same e.1 e.2 es) [])

/-- A set of the keys of entries, in their order if they have one. -/
def setOf (entries : List (Data × Data)) : Data :=
  let members := (entries.foldl (fun es e => insertKeyed Data.same e.1 e.2 es) []).map Prod.fst
  .set (if Data.comparable members then members.mergeSort Data.le else members)

namespace Document

/-- How deep collections can stand in one another when they are written out: each at most once, and
the two that are taken apart once more. A scalar stands inside the last. -/
def writtenDepth (d : Document) : Nat :=
  d.size + 4

/-- The entries of a mapping with those that are merged into it. -/
def entriesOf (d : Document) (n : Nat) (entries : Entries) : Except YamlError Entries :=
  d.mergedEntries d.writtenDepth [] n entries

/-- The value of a key of a mapping. The key of a default value is a text there, and a collection is
no key. -/
def keyValue (d : Document) (key : Node) : Except YamlError Data :=
  match key.meaning with
  | .sequence | .pairs | .mapping | .set => .error (.malformed "found unhashable key")
  | meaning =>
    match key.textWithin d.writtenDepth with
    | none => .error (.malformed "expected a scalar")
    | some text => scalarValue (if meaning = .defaultKey then .text else meaning) text

/-- The value of an entry, given how the value of a node is made. -/
def entryValue (d : Document) (depth : Nat) (value : Node → Checked Data) (entry : Node × Node) :
    Checked (Data × Data) :=
  Checked.both (.ofExcept depth (d.keyValue entry.1)) (value entry.2)

/-- The value of an item of a list of pairs, which is a mapping with one entry. -/
def pairValue (d : Document) (depth : Nat) (value : Node → Checked Data) (item : Node) :
    Checked Data :=
  match d.resolve item with
  | .mapping _ _ [(key, content)] =>
    (Checked.both (value key) (value content)).map fun (a, b) => .pair a b
  | _ => Checked.fault depth (.malformed "expected a mapping with one entry")

/-- The value of a collection, given how the values of the nodes inside it are made. -/
def collectionValue (d : Document) (depth : Nat) (value : Node → Checked Data) (meaning : Meaning)
    (node : Node) : Checked Data :=
  let entriesValue (n : Nat) (entries : Entries) (make : List (Data × Data) → Data) :
      Checked Data :=
    match d.entriesOf n entries with
    | .error e => Checked.fault depth e
    | .ok entries => (Checked.all (entries.map (d.entryValue depth value))).map make
  match meaning, node with
  | .sequence, .sequence _ _ items => (Checked.all (items.map value)).map .list
  | .pairs, .sequence _ _ items =>
    (Checked.all (items.map (d.pairValue depth value))).map .list
  | .mapping, .mapping n _ entries => entriesValue n entries mappingOf
  | .set, .mapping n _ entries => entriesValue n entries setOf
  | _, _ => Checked.fault depth (.malformed "expected another collection")

/-- The value of a node, given a bound for the collections inside one another. -/
def nodeValue (d : Document) : (bound : Nat) → Surroundings → Node → Checked Data
  | 0, around, _ => Checked.fault around.depth .tooDeep
  | bound + 1, around, node =>
    let node := d.resolve node
    match node.meaning with
    | .sequence | .pairs | .mapping | .set =>
      if node.number?.any fun n => around.written.contains n then
        .ok (.again (node.meaning = .mapping))
      else
        let inside := around.inside node
        d.collectionValue inside.depth (d.nodeValue bound inside) node.meaning node
    | meaning =>
      match node.textWithin d.writtenDepth with
      | none => Checked.fault around.depth (.malformed "expected a scalar")
      | some text => .ofExcept around.depth (scalarValue meaning text)

/-- The value of a document. -/
def value (d : Document) : Except YamlError Data :=
  match d.nodeValue d.writtenDepth .outermost d.root with
  | .ok value => .ok value
  | .error fault => .error fault.error

end Document

/-! ## Reading a document -/

/-- The characters that a document may hold. -/
def isAllowedChar (c : Char) : Bool :=
  let n := c.toNat
  n = 0x09 || n = 0x0A || n = 0x0D || n = 0x85 || (0x20 ≤ n && n ≤ 0x7E) ||
    (0xA0 ≤ n && n ≤ 0xFFFD) || 0x10000 ≤ n

/-- How deeply the nodes of a document may be nested. -/
def nestingLimit : Nat := 400

/-- The value that a text describes; a text without a document is null. -/
def read (text : String) : Except YamlError Data :=
  -- A carriage return counts as a line feed before anything else is looked at.
  let cs := Text.unifyLineEnds text.toList
  if cs.all isAllowedChar then
    match Document.ofTokens? nestingLimit (Token.scan cs) with
    | .error e => .error e
    | .ok none => .ok .null
    | .ok (some d) => d.value
  else .error (.malformed "special characters are not allowed")

end LatexLogic.Yaml
