import LatexLogic.Yaml.ScalarText

/-!
# YAML tokens

The tokens of a document: marks of documents, the start and end of collections, the marks of keys,
values and entries, names, tags and scalars. Block collections have no brackets of their own, so
their start and end tokens are derived from the columns of their entries.

A key without its own mark is only recognised by the colon behind it. Wherever such a simple key may
stand, the place is remembered per level of flow brackets; when the colon comes, the marks of the
key and, if need be, of a new block mapping are put in front of the tokens read since. A simple key
ends on its line and within 1024 characters.

Where no token can be read the list of tokens ends with what is wrong, so that whoever reads the
tokens may find an error in front of it first.
-/

set_option autoImplicit false

namespace LatexLogic.Yaml

/-- A tag as written: a handle that abbreviates its first part, if there is one, and the rest. -/
structure WrittenTag where
  /-- The handle, from one exclamation mark to the next. -/
  handle : Option String
  /-- The rest of the tag. -/
  suffix : String
  deriving DecidableEq, Repr

/-- The lines at the head of a document. -/
inductive Directive where
  | version (major : Nat)
  | tagHandle (handle meaning : String)
  | other
  deriving DecidableEq, Repr

/-- A token of a document. -/
inductive Token where
  | directive (d : Directive)
  | documentStart
  | documentEnd
  | streamEnd
  | blockSequenceStart
  | blockMappingStart
  | blockEnd
  | flowSequenceStart
  | flowSequenceEnd
  | flowMappingStart
  | flowMappingEnd
  | blockEntry
  | flowEntry
  | key
  | value
  | reference (name : String)
  | anchor (name : String)
  | tag (t : WrittenTag)
  | scalar (text : String) (plain : Bool)
  /-- What keeps the text from going on. -/
  | broken (e : YamlError)
  deriving DecidableEq, Repr

/-! ## Names and tags -/

/-- The characters of names and handles. -/
def isNameChar (c : Char) : Bool :=
  ('0' ≤ c && c ≤ '9') || ('A' ≤ c && c ≤ 'Z') || ('a' ≤ c && c ≤ 'z') || c = '-' || c = '_'

/-- The characters of tags beside percent escapes. -/
def isTagChar (c : Char) : Bool :=
  isNameChar c || c ∈ ['-', ';', '/', '?', ':', '@', '&', '=', '+', '$', ',', '_', '.', '!', '~',
    '*', '\'', '(', ')', '[', ']']

namespace Cursor

/-- Whether a space or a line end follows, or the end of the text. -/
def atGap (p : Cursor) : Bool :=
  match p.peek with
  | none => true
  | some c => c = ' ' || isBreak c

/-- Reads the name of an anchor or of a reference to one, from its indicator on. -/
def name (p : Cursor) : Except YamlError (String × Cursor) :=
  let (taken, p) := p.forward.takeWhile isNameChar
  let ends :=
    match p.peek with
    | none => true
    | some c => isSeparator c || c ∈ ['?', ':', ',', ']', '\x7d', '%', '@', Char.ofNat 0x60]
  if taken.isEmpty || !ends then .error (.malformed "expected alphabetic or numeric character")
  else .ok (String.ofList taken, p)

/-- The bytes that percent escapes stand for. -/
def tagBytes : (limit : Nat) → List Char → Option ByteArray
  | 0, _ => some ByteArray.empty
  | _ + 1, [] => some ByteArray.empty
  | limit + 1, '%' :: a :: b :: cs => do
    let high ← hexValue? a
    let low ← hexValue? b
    return ⟨#[(16 * high + low).toUInt8]⟩ ++ (← tagBytes limit cs)
  | limit + 1, c :: cs => do
    if c = '%' then none else return (String.singleton c).toUTF8 ++ (← tagBytes limit cs)

/-- Reads the main part of a tag. -/
def tagText (p : Cursor) : Except YamlError (String × Cursor) :=
  let (taken, p) := p.takeWhile fun c => isTagChar c || c = '%'
  if taken.isEmpty then .error (.malformed "expected a tag")
  else
    match (tagBytes taken.length taken).bind String.fromUTF8? with
    | some text => .ok (text, p)
    | none => .error (.malformed "expected an escape sequence in a tag")

/-- Reads a handle: an exclamation mark, or a word between two of them. -/
def tagHandle (p : Cursor) : Except YamlError (String × Cursor) :=
  if p.peek ≠ some '!' then .error (.malformed "expected an exclamation mark")
  else if p.peekAt 1 = some ' ' then .ok ("!", p.forward)
  else
    let (word, q) := p.forward.takeWhile isNameChar
    if q.peek = some '!' then .ok ("!" ++ String.ofList word ++ "!", q.forward)
    else .error (.malformed "expected an exclamation mark")

/-- Reads a tag from its exclamation mark on. -/
def tag (p : Cursor) : Except YamlError (WrittenTag × Cursor) := do
  let (tag, p) ←
    match p.peekAt 1 with
    | some '<' => do
      let (text, p) ← (p.skip 2).tagText
      if p.peek = some '>' then pure (WrittenTag.mk none text, p.forward)
      else throw (.malformed "expected the end of a tag")
    | c =>
      if endsWord c then pure (WrittenTag.mk none "!", p.forward)
      else do
        let word := p.forward.rest.takeWhile fun c => !(c = ' ' || isBreak c)
        let (handle, p) ← if '!' ∈ word then p.tagHandle else pure ("!", p.forward)
        let (text, p) ← p.tagText
        pure (WrittenTag.mk (some handle) text, p)
  if p.atGap then return (tag, p) else throw (.malformed "expected a space after a tag")

/-- Reads a directive from its percent sign on. -/
def directive (p : Cursor) : Except YamlError (Directive × Cursor) := do
  let (word, p) := p.forward.takeWhile isNameChar
  if word.isEmpty || !p.atGap then throw (.malformed "expected a directive name")
  let number (p : Cursor) : Except YamlError (Nat × Cursor) :=
    let (digits, p) := p.takeWhile Char.isDigit
    if digits.isEmpty then .error (.malformed "expected a digit")
    else .ok (digits.foldl (fun n c => 10 * n + (c.toNat - '0'.toNat)) 0, p)
  let (d, p) ←
    match String.ofList word with
    | "YAML" => do
      let (major, p) ← number (p.skipWhile (· = ' '))
      if p.peek ≠ some '.' then throw (.malformed "expected a digit or a point")
      let (_, p) ← number p.forward
      if p.atGap then pure (Directive.version major, p)
      else throw (.malformed "expected a digit or a space")
    | "TAG" => do
      let (handle, p) ← (p.skipWhile (· = ' ')).tagHandle
      if p.peek ≠ some ' ' then throw (.malformed "expected a space after a handle")
      let (meaning, p) ← (p.skipWhile (· = ' ')).tagText
      if p.atGap then pure (Directive.tagHandle handle meaning, p)
      else throw (.malformed "expected a space after a tag")
    | _ => pure (Directive.other, p.skipWhile fun c => !isBreak c)
  return (d, ← p.restOfLine)

end Cursor

/-! ## Simple keys -/

/-- A place where a simple key may have started. -/
structure KeyPlace where
  /-- How many tokens came before. -/
  before : Nat
  /-- Where it started. -/
  place : Cursor
  /-- Whether the block it stands in leaves no other reading. -/
  required : Bool

/-- Whether a key that started at a place can no longer end at the cursor. -/
def KeyPlace.isStale (k : KeyPlace) (p : Cursor) : Bool :=
  k.place.line ≠ p.line || p.index - k.place.index > 1024

/-- The state of scanning. -/
structure Scanner where
  /-- What is left to read. -/
  cursor : Cursor
  /-- The tokens so far. -/
  tokens : Array Token
  /-- The number of open flow brackets. -/
  flowLevel : Nat
  /-- The column of the innermost block collection, or -1. -/
  indent : Int
  /-- The columns of the block collections around it. -/
  outer : List Int
  /-- Whether a simple key may start here. -/
  keyAllowed : Bool
  /-- The places where simple keys may have started, by flow level. -/
  keys : List (Nat × KeyPlace)

/-- A step of scanning. -/
abbrev Scan := StateT Scanner (Except YamlError)

namespace Scanner

/-- The state at the start of a text. -/
def start (text : List Char) : Scanner :=
  ⟨Cursor.start text, #[], 0, -1, [], true, []⟩

/-- Adds a token. -/
def emit (t : Token) : Scan Unit :=
  modify fun s => { s with tokens := s.tokens.push t }

/-- Runs a reader of the cursor. -/
def take {α : Type} (reader : Cursor → Except YamlError (α × Cursor)) : Scan α := do
  let (a, p) ← reader (← get).cursor
  modify fun s => { s with cursor := p }
  return a

/-- Moves the cursor. -/
def skip (n : Nat) : Scan Unit :=
  modify fun s => { s with cursor := s.cursor.skip n }

/-- Sets whether a simple key may start. -/
def allowKey (allowed : Bool) : Scan Unit :=
  modify fun s => { s with keyAllowed := allowed }

/-- Forgets the simple key of this level; it is an error if there was no other reading. -/
def dropKey : Scan Unit := do
  let s ← get
  match s.keys.lookup s.flowLevel with
  | some k => if k.required then throw (.malformed "could not find expected ':'")
  | none => pure ()
  set { s with keys := s.keys.filter fun k => k.1 ≠ s.flowLevel }

/-- Forgets the simple keys that can no longer be completed. -/
def dropStaleKeys : Scan Unit := do
  let s ← get
  if s.keys.any fun k => k.2.isStale s.cursor && k.2.required then
    throw (.malformed "could not find expected ':'")
  set { s with keys := s.keys.filter fun k => !k.2.isStale s.cursor }

/-- Remembers that a simple key may start here. -/
def saveKey : Scan Unit := do
  if (← get).keyAllowed then
    dropKey
    modify fun s =>
      { s with
        keys := (s.flowLevel, ⟨s.tokens.size, s.cursor,
          s.flowLevel = 0 && s.indent = s.cursor.column⟩) :: s.keys }

/-- Ends the block collections that are indented further than a column. -/
def closeBlocks (column : Int) : List Int → Scan Unit
  | [] => pure ()
  | outer :: rest => do
    if (← get).indent > column then
      emit .blockEnd
      modify fun s => { s with indent := outer, outer := rest }
      closeBlocks column rest

/-- Ends the block collections that are indented further than a column. Inside flow brackets the
indentation does not matter. -/
def unwind (column : Int) : Scan Unit := do
  let s ← get
  if s.flowLevel = 0 then closeBlocks column s.outer

/-- Starts a block collection at a column, if it is indented further than the one around it. -/
def startBlock (column : Int) : Scan Bool := do
  let s ← get
  if s.indent < column then
    set { s with indent := column, outer := s.indent :: s.outer }
    return true
  else return false

/-- Starts a block collection here, if need be, with the given token. -/
def startBlockHere (t : Token) : Scan Unit := do
  if ← startBlock (← get).cursor.column then emit t

/-! ## Single tokens -/

/-- Skips white space and comments. A line end in a block allows a simple key. -/
def skipGap : Scan Unit :=
  modify fun s =>
    let p :=
      if s.cursor.index = 0 && s.cursor.peek = some byteOrderMark then s.cursor.forward
      else s.cursor
    let (n, lineEnded) := Cursor.gap false p.rest
    { s with
      cursor := p.skip n
      keyAllowed := s.keyAllowed || (lineEnded && s.flowLevel = 0) }

/-- Ends all blocks in front of a token that stands outside any. -/
def leaveBlocks : Scan Unit := do
  unwind (-1)
  dropKey
  allowKey false

/-- A mark between documents. -/
def documentMark (t : Token) : Scan Unit := do
  leaveBlocks
  skip 3
  emit t

/-- An opening flow bracket. -/
def flowStart (t : Token) : Scan Unit := do
  saveKey
  modify fun s => { s with flowLevel := s.flowLevel + 1 }
  allowKey true
  skip 1
  emit t

/-- A closing flow bracket. -/
def flowEnd (t : Token) : Scan Unit := do
  dropKey
  modify fun s => { s with flowLevel := s.flowLevel - 1 }
  allowKey false
  skip 1
  emit t

/-- A comma between flow entries. -/
def flowEntry : Scan Unit := do
  allowKey true
  dropKey
  skip 1
  emit .flowEntry

/-- Refuses a token of a block where no entry may start. -/
def demandKeyAllowed (problem : String) : Scan Unit := do
  if (← get).keyAllowed then pure () else throw (.malformed problem)

/-- The mark of an entry of a block sequence. -/
def blockEntry : Scan Unit := do
  if (← get).flowLevel = 0 then
    demandKeyAllowed "sequence entries are not allowed here"
    startBlockHere .blockSequenceStart
  allowKey true
  dropKey
  skip 1
  emit .blockEntry

/-- The mark of a key. -/
def keyMark : Scan Unit := do
  let inBlock := (← get).flowLevel = 0
  if inBlock then
    demandKeyAllowed "mapping keys are not allowed here"
    startBlockHere .blockMappingStart
  allowKey inBlock
  dropKey
  skip 1
  emit .key

/-- Puts a token in front of those that were read since a place. -/
def insertAt (before : Nat) (t : Token) : Scan Unit :=
  modify fun s =>
    { s with tokens := s.tokens.extract 0 before ++ #[t] ++ s.tokens.extract before s.tokens.size }

/-- The mark of a value. If a simple key came before, it gets its own mark now. -/
def valueMark : Scan Unit := do
  let s ← get
  let inBlock := s.flowLevel = 0
  match s.keys.lookup s.flowLevel with
  | some k =>
    set { s with keys := s.keys.filter fun k => k.1 ≠ s.flowLevel }
    insertAt k.before .key
    -- The mapping starts at the column of its first key, in front of that key.
    if inBlock then
      if ← startBlock k.place.column then insertAt k.before .blockMappingStart
    allowKey false
  | none =>
    if inBlock then
      demandKeyAllowed "mapping values are not allowed here"
      startBlockHere .blockMappingStart
    allowKey inBlock
    dropKey
  skip 1
  emit .value

/-- A token that may be, or be in front of, a simple key. -/
def keyLike (reader : Cursor → Except YamlError (Token × Cursor)) : Scan Unit := do
  saveKey
  allowKey false
  emit (← take reader)

/-- A plain scalar. If a line ends behind it, a simple key may follow. -/
def plain : Scan Unit := do
  saveKey
  let s ← get
  let (text, lineEnded, p) := s.cursor.plainScalar (s.flowLevel ≠ 0) (s.indent + 1)
  set { s with cursor := p, keyAllowed := lineEnded }
  emit (.scalar (String.ofList text) true)

/-- A block scalar. -/
def block (folded : Bool) : Scan Unit := do
  allowKey true
  dropKey
  let s ← get
  -- The indentation of a block is counted from the collection around it.
  let text ← take fun p => p.blockScalar folded s.indent
  emit (.scalar (String.ofList text) false)

/-- A quoted scalar. -/
def quoted (quote : Char) : Scan Unit :=
  keyLike fun p => do
    let (text, p) ← p.quotedScalar quote
    return (.scalar (String.ofList text) false, p)

/-- Whether a plain scalar can start at the cursor. -/
def startsPlain (inFlow : Bool) (c : Char) (next : Option Char) : Bool :=
  if isSeparator c then false
  else if c = '-' then !endsWord next
  else if c = '?' || c = ':' then !inFlow && !endsWord next
  else c ∉ [',', '[', ']', '\x7b', '\x7d', '#', '&', '*', '!', '|', '>', '\'', '"', '%', '@',
    Char.ofNat 0x60]

/-- Reads one token, or several that end blocks, and says whether the text goes on. -/
def step : Scan Bool := do
  skipGap
  dropStaleKeys
  unwind (← get).cursor.column
  let s ← get
  let p := s.cursor
  match p.peek with
  | none =>
    leaveBlocks
    emit .streamEnd
    return false
  | some c =>
    let next := p.peekAt 1
    let inFlow := s.flowLevel ≠ 0
    let atMark := p.column = 0 && p.atDocumentMark
    -- Lines that belong to the stream and not to a node.
    if c = '%' && p.column = 0 then do
      leaveBlocks
      emit (.directive (← take Cursor.directive))
    else if c = '-' && atMark then documentMark .documentStart
    else if c = '.' && atMark then documentMark .documentEnd
    -- Inside flow brackets these separate; elsewhere no node can begin with one of them.
    else if c = '[' then flowStart .flowSequenceStart
    else if c = '\x7b' then flowStart .flowMappingStart
    else if c = ']' then flowEnd .flowSequenceEnd
    else if c = '\x7d' then flowEnd .flowMappingEnd
    else if c = ',' then flowEntry
    -- Marks of entries, which a gap has to follow outside flow brackets.
    else if c = '-' && endsWord next then blockEntry
    else if c = '?' && (inFlow || endsWord next) then keyMark
    else if c = ':' && (inFlow || endsWord next) then valueMark
    -- What can be a simple key, or stand in front of one.
    else if c = '*' then keyLike fun p => do
      let (name, p) ← p.name
      return (.reference name, p)
    else if c = '&' then keyLike fun p => do
      let (name, p) ← p.name
      return (.anchor name, p)
    else if c = '!' then keyLike fun p => do
      let (t, p) ← p.tag
      return (.tag t, p)
    else if c = '|' && !inFlow then block false
    else if c = '>' && !inFlow then block true
    else if c = '\'' || c = '"' then quoted c
    else if startsPlain inFlow c next then plain
    else throw (.malformed "found character that cannot start any token")
    return true

/-- The tokens that nothing behind the cursor can change: those in front of every place where a
simple key may have started. -/
def settled (s : Scanner) : List Token :=
  let places := (s.keys.filter fun k => !k.2.isStale s.cursor).map fun k => k.2.before
  s.tokens.toList.take (places.foldl min s.tokens.size)

/-- The tokens from a state on, read in at most the given number of steps. -/
def tokensFrom : (limit : Nat) → Scanner → List Token
  | 0, s => s.tokens.toList
  | limit + 1, s =>
    match step.run s with
    | .ok (true, next) => tokensFrom limit next
    | .ok (false, next) => next.tokens.toList
    | .error e => s.settled ++ [.broken e]

end Scanner

/-- The tokens of a text. Every step but the last takes at least one character. -/
def Token.scan (text : List Char) : List Token :=
  Scanner.tokensFrom (text.length + 1) (Scanner.start text)

end LatexLogic.Yaml
