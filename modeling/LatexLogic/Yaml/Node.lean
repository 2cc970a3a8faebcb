import LatexLogic.Yaml.Meaning
import LatexLogic.Yaml.Token

/-!
# YAML nodes

The tree of a document: scalars, sequences and mappings, each with its tag. Anchors and references
are gone: a reference is the node that its anchor names. Only a reference inside that node is left,
and gives the number of the collection that it leads back to. A document has one node; an empty
scalar stands wherever a node is missing.

The nodes inside a collection are read one level of nesting below it, and the number of levels is
limited.
-/

set_option autoImplicit false

namespace LatexLogic.Yaml

/-- How the meaning of a node is told: by a tag, by its text, or by its being quoted or a
collection. -/
inductive NodeTag where
  | named (tag : String)
  | plain
  | general
  deriving DecidableEq, Repr

/-- A node of a document. Collections are numbered. -/
inductive Node where
  | scalar (tag : NodeTag) (text : String)
  | sequence (number : Nat) (tag : NodeTag) (items : List Node)
  | mapping (number : Nat) (tag : NodeTag) (entries : List (Node × Node))
  /-- A reference to a collection around it. -/
  | enclosing (number : Nat)

namespace Node

/-- The node that stands where none is written. -/
def missing : Node := .scalar .plain ""

/-- The number of a collection. -/
def number? : Node → Option Nat
  | .sequence n _ _ | .mapping n _ _ | .enclosing n => some n
  | .scalar _ _ => none

/-- What a scalar means, given its tag and its text. -/
def scalarMeaning (tag : NodeTag) (text : String) : Meaning :=
  match tag with
  | .named tag => .ofTag tag
  | .plain => .ofText text
  | .general => .text

/-- What a collection means, given its tag and what it means without one. -/
def collectionMeaning (tag : NodeTag) (meaning : Meaning) : Meaning :=
  match tag with
  | .named tag => .ofTag tag
  | .plain | .general => meaning

/-- What a node means. -/
def meaning : Node → Meaning
  | .scalar tag text => scalarMeaning tag text
  | .sequence _ tag _ => collectionMeaning tag .sequence
  | .mapping _ tag _ => collectionMeaning tag .mapping
  | .enclosing _ => .mapping

end Node

/-- What a text holds. -/
structure Document where
  /-- The node of the document. -/
  root : Node
  /-- The nodes that anchors name, the last first. -/
  anchored : List Node
  /-- How many collections there are. -/
  size : Nat

/-- The state of reading nodes. -/
structure NodeReading where
  /-- The tokens that are left. -/
  tokens : List Token
  /-- The nodes that anchors name; a later entry for a name stands in front. -/
  anchors : List (String × Node)
  /-- The first parts of tags that handles abbreviate. -/
  handles : List (String × String)
  /-- How many collections have been numbered. -/
  count : Nat

/-- A reader of nodes. -/
abbrev NodeReader := StateT NodeReading (Except YamlError)

namespace NodeReader

variable {α : Type}

/-- Refuses the document. -/
def malformed (problem : String) : NodeReader α :=
  throw (.malformed problem)

/-- The next token; behind the last one the stream stays at its end. Where the tokens break off, so
does the reading. -/
def peek : NodeReader Token := do
  match (← get).tokens with
  | [] => return .streamEnd
  | .broken e :: _ => throw e
  | t :: _ => return t

/-- Passes the next token. -/
def pass : NodeReader Unit :=
  modify fun s => { s with tokens := s.tokens.drop 1 }

/-- Passes the next token if it is the given one. -/
def passIf (t : Token) : NodeReader Bool := do
  if (← peek) = t then
    pass
    return true
  else return false

/-- Passes the next token, which has to be the given one. -/
def demand (t : Token) (problem : String) : NodeReader Unit := do
  if ← passIf t then return () else malformed problem

/-- How many tokens are left, which bounds every loop. -/
def remaining : NodeReader Nat := do
  return (← get).tokens.length

/-- A number for the next collection. -/
def nextNumber : NodeReader Nat := do
  let n := (← get).count
  modify fun s => { s with count := n + 1 }
  return n

/-- Reads a node, or finds it missing in front of one of the given tokens. -/
def orMissing (followers : List Token) (node : NodeReader Node) : NodeReader Node := do
  if (← peek) ∈ followers then return .missing else node

/-- Repeats a reader as long as it has something to add, at most the given number of times. -/
def collect (part : NodeReader (Option α)) : (limit : Nat) → NodeReader (List α)
  | 0 => return []
  | limit + 1 => do
    match ← part with
    | none => return []
    | some a => return a :: (← collect part limit)

/-! ## Collections -/

/-- The entries of a block sequence. -/
def blockSequence (node : NodeReader Node) : NodeReader (List Node) := do
  let items ← collect (do
    if ← passIf .blockEntry then
      return some (← orMissing [.blockEntry, .blockEnd] node)
    else return none) (← remaining)
  demand .blockEnd "expected the end of a block collection"
  return items

/-- The entries of a sequence that stands in a mapping without being indented. -/
def flatSequence (node : NodeReader Node) : NodeReader (List Node) := do
  collect (do
    if ← passIf .blockEntry then
      return some (← orMissing [.blockEntry, .key, .value, .blockEnd] node)
    else return none) (← remaining)

/-- The entries of a block mapping. -/
def blockMapping (node : NodeReader Node) : NodeReader (List (Node × Node)) := do
  let missingBefore : List Token := [.key, .value, .blockEnd]
  let entries ← collect (do
    if ← passIf .key then
      let key ← orMissing missingBefore node
      let value ← if ← passIf .value then orMissing missingBefore node else pure .missing
      return some (key, value)
    else return none) (← remaining)
  demand .blockEnd "expected the end of a block mapping"
  return entries

/-- The parts of a flow collection up to its closing bracket, with commas between them and possibly
one after the last. -/
def flowParts (closing : Token) (part : NodeReader α) : (limit : Nat) → NodeReader (List α)
  | 0 => malformed "expected a comma or a closing bracket"
  | limit + 1 => do
    if ← passIf closing then return []
    else
      let first ← part
      if ← passIf closing then return [first]
      else
        demand .flowEntry "expected a comma or a closing bracket"
        return first :: (← flowParts closing part limit)

/-- A key with its value inside a flow collection; the mark of the key was passed. -/
def flowPair (closing : Token) (node : NodeReader Node) : NodeReader (Node × Node) := do
  let key ← orMissing [.value, .flowEntry, closing] node
  let value ← if ← passIf .value then orMissing [.flowEntry, closing] node else pure .missing
  return (key, value)

/-- The items of a flow sequence. A pair is a mapping of its own. -/
def flowSequence (node : NodeReader Node) : NodeReader (List Node) := do
  flowParts .flowSequenceEnd (do
    if ← passIf .key then
      return .mapping (← nextNumber) .general [← flowPair .flowSequenceEnd node]
    else node) ((← remaining) + 1)

/-- The entries of a flow mapping. A node without a mark is a key without a value. -/
def flowMapping (node : NodeReader Node) : NodeReader (List (Node × Node)) := do
  flowParts .flowMappingEnd (do
    if ← passIf .key then flowPair .flowMappingEnd node
    else return (← node, .missing)) ((← remaining) + 1)

/-! ## Nodes -/

/-- The positions of a node that differ in which collections may stand there. -/
inductive Position where
  | block
  | blockValue
  | flow
  deriving DecidableEq

/-- The full tag of a written one. -/
def resolveTag (t : WrittenTag) : NodeReader String := do
  match t.handle with
  | none => return t.suffix
  | some handle =>
    match (← get).handles.lookup handle with
    | some meaning => return meaning ++ t.suffix
    | none => malformed "found undefined tag handle"

/-- The anchor in front of a node. -/
def anchor? : NodeReader (Option String) := do
  match ← peek with
  | .anchor name =>
    pass
    return some name
  | _ => return none

/-- The tag in front of a node. -/
def tag? : NodeReader (Option WrittenTag) := do
  match ← peek with
  | .tag t =>
    pass
    return some t
  | _ => return none

/-- The anchor and the tag in front of a node, in either order. -/
def properties : NodeReader (Option String × Option String) := do
  let (anchor, tag) ←
    match ← anchor? with
    | some name => pure (some name, ← tag?)
    | none =>
      let tag ← tag?
      pure (← anchor?, tag)
  match tag with
  | none => return (anchor, none)
  | some t => return (anchor, some (← resolveTag t))

/-- How the meaning of a node is told. An exclamation mark alone leaves it to the text, even if that
is quoted. -/
def nodeTag (tag : Option String) (isPlain : Bool) : NodeTag :=
  match tag with
  | none => if isPlain then .plain else .general
  | some tag => if tag = "!" then .plain else .named tag

/-- Refuses an anchor whose name is taken. -/
def checkAnchor (anchor : Option String) : NodeReader Unit := do
  match anchor with
  | none => return ()
  | some name => if ((← get).anchors.lookup name).isSome then malformed "found duplicate anchor"

/-- Lets an anchor, if there is one, name a node. -/
def nameNode (anchor : Option String) (node : Node) : NodeReader Node := do
  match anchor with
  | none => return node
  | some name =>
    modify fun s => { s with anchors := (name, node) :: s.anchors }
    return node

/-- Reads a collection from the token behind its start on, given a reader of its inside. Inside, its
anchor leads back to it. -/
def numbered {α : Type} (anchor : Option String) (make : Nat → α → Node) (inside : NodeReader α) :
    NodeReader Node := do
  let n ← nextNumber
  let _ ← nameNode anchor (.enclosing n)
  let parts ← inside
  nameNode anchor (make n parts)

/-- The collection at a position, if one starts there; the nodes inside it are read by the given
reader. -/
def collection? (inner : Position → NodeReader Node) (position : Position)
    (anchor : Option String) (tag : NodeTag) : NodeReader (Option Node) := do
  let sequence := numbered anchor (.sequence · tag)
  let mapping := numbered anchor (.mapping · tag)
  match ← peek with
  | .flowSequenceStart =>
    pass
    return some (← sequence (flowSequence (inner .flow)))
  | .flowMappingStart =>
    pass
    return some (← mapping (flowMapping (inner .flow)))
  | .blockSequenceStart =>
    if position = .flow then return none
    else
      pass
      return some (← sequence (blockSequence (inner .block)))
  | .blockMappingStart =>
    if position = .flow then return none
    else
      pass
      return some (← mapping (blockMapping (inner .blockValue)))
  | .blockEntry =>
    if position = .blockValue then return some (← sequence (flatSequence (inner .block)))
    else return none
  | _ => return none

/-- Reads a node, given a reader for the nodes inside it. -/
def nodeAbove (inner : Position → NodeReader Node) (position : Position) : NodeReader Node := do
  match ← peek with
  | .reference name =>
    pass
    match (← get).anchors.lookup name with
    | some node => return node
    | none => malformed "found undefined alias"
  | _ =>
    let (anchor, tag) ← properties
    match ← peek with
    | .scalar text isPlain =>
      pass
      checkAnchor anchor
      nameNode anchor (.scalar (nodeTag tag isPlain) text)
    | _ =>
      checkAnchor anchor
      match ← collection? inner position anchor (nodeTag tag false) with
      | some node => return node
      | none =>
        -- An anchor or a tag with nothing behind it belongs to an empty scalar.
        if anchor.isSome || tag.isSome then nameNode anchor (.scalar (nodeTag tag true) "")
        else malformed "expected the node content"

/-- Reads a node with at most the given number of nodes around it. -/
def node : (depth : Nat) → Position → NodeReader Node
  | 0 => fun _ => throw .tooDeep
  | depth + 1 => nodeAbove (node depth)

/-! ## Documents -/

/-- The handles that need no directive. -/
def defaultHandles : List (String × String) :=
  [("!", "!"), ("!!", "tag:yaml.org,2002:")]

/-- Reads the directives in front of a document, at most the given number. -/
def directives : (limit : Nat) → (versionSeen : Bool) → NodeReader Unit
  | 0, _ => return ()
  | limit + 1, versionSeen => do
    match ← peek with
    | .directive d =>
      pass
      match d with
      | .version major =>
        if versionSeen then malformed "found duplicate YAML directive"
        else if major ≠ 1 then malformed "found incompatible YAML document"
        else directives limit true
      | .tagHandle handle meaning =>
        if ((← get).handles.lookup handle).isSome then malformed "duplicate tag handle"
        else
          modify fun s => { s with handles := (handle, meaning) :: s.handles }
          directives limit versionSeen
      | .other => directives limit versionSeen
    | _ => return ()

/-- Reads the marks behind a document, of which only the first belongs to it. -/
def documentEnds : (limit : Nat) → NodeReader Unit
  | 0 => return ()
  | limit + 1 => do
    if ← passIf .documentEnd then documentEnds limit

/-- Reads a document that a mark introduces. -/
def explicitDocument (depth : Nat) : NodeReader Node := do
  directives (← remaining) false
  modify fun s => { s with handles := s.handles ++ defaultHandles }
  demand .documentStart "expected the start of a document"
  match ← peek with
  | .directive _ | .documentStart | .documentEnd | .streamEnd => return .missing
  | _ => node depth .block

/-- Reads the one document of a stream, if there is one. -/
def document? (depth : Nat) : NodeReader (Option Node) := do
  match ← peek with
  | .streamEnd => return none
  | first =>
    let isExplicit : Bool :=
      match first with
      | .directive _ | .documentStart => true
      | _ => false
    let root ←
      if isExplicit then explicitDocument depth
      else do
        modify fun s => { s with handles := defaultHandles }
        node depth .block
    documentEnds (← remaining)
    demand .streamEnd "expected a single document in the stream"
    return some root

end NodeReader

/-- What a stream of tokens holds, if it has a document. -/
def Document.ofTokens? (depth : Nat) (tokens : List Token) :
    Except YamlError (Option Document) :=
  match (NodeReader.document? depth).run ⟨tokens, [], [], 0⟩ with
  | .ok (none, _) => .ok none
  | .ok (some root, s) => .ok (some ⟨root, s.anchors.map Prod.snd, s.count⟩)
  | .error e => .error e

end LatexLogic.Yaml
