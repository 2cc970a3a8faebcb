import LatexLogic.Table.Entry

/-!
# Syntax tables

A syntax table says what each spelling means. A spelling is a single character or a control word
without its backslash; a table may hold other texts, but no token ever looks them up. Entries keep
the order in which their spellings were first written.

Tables are built from a list of keys and items, where an item is either a finished construct or a
plain value. `Table.ofItems` reads and checks the items one by one; `Table.extend` reads all new
entries first, then lays them over the old ones and checks the merged list. Both end with the check
that no label is used by two kinds of construct: operators of one kind may share a label as aliases,
operators of different kinds may not, because the checks on finished trees tell quantifiers by their
label. Labels are told apart by looking them up, so a list or a mapping as a label is found out here
and not before.

Formulas are read with tables whose labels are texts (`Table`); what is built is a table with any
labels (`Table Data`), of which the former are a part (`Table.valued`). `Table.WellFormed` is what
every built table satisfies.
-/

set_option autoImplicit false

namespace LatexLogic

/-- The entries of a syntax table, in order. -/
structure Table (Λ : Type := String) where
  /-- Spellings and their meanings. -/
  entries : List (String × Construct Λ)
  deriving Repr

/-- Why no table can be built. -/
inductive TableError where
  | entry (error : EntryError)
  | notAConstruct (key value : Data)
  | emptySpelling
  | longSpelling (key : Data)
  | labelIsNoKey (label : Data)
  | sharedLabel (label : Data) (firstKind : Kind) (firstSpelling : String) (kind : Kind)
      (spelling : String)
  deriving Repr

namespace TableError

/-- The message of an error, where it has one. -/
def message? : TableError → Option String
  | entry error => error.message?
  | notAConstruct key value =>
    some (Data.messageShowing [key, value]
      ("Not a syntax construct for " ++ key.display ++ ": " ++ value.display))
  | emptySpelling => some "Spellings must be non-empty"
  | longSpelling _ => some Numeral.tooLongMessage
  | labelIsNoKey _ => none
  | sharedLabel label firstKind firstSpelling kind spelling =>
    some (Data.messageShowing [label] ("Label " ++ label.display ++ " is used by " ++
      firstKind.name ++ " " ++ Text.quoted firstSpelling ++ " and " ++ kind.name ++ " " ++
      Text.quoted spelling))

/-- What is met in place of the error. -/
def obstacle? (shows : Data → Bool) : TableError → Option Obstacle
  | entry error => error.obstacle? shows
  | notAConstruct key value => Data.writingObstacle? shows [key, value]
  | emptySpelling => none
  | longSpelling _ => some .digits
  | labelIsNoKey _ => some .sort
  | sharedLabel label _ _ _ _ => Data.writingObstacle? shows [label]

/-- Whether a table reports the error. -/
def isReported (shows : Data → Bool) (e : TableError) : Bool :=
  (e.obstacle? shows).all Obstacle.isReported

end TableError

namespace Table

variable {Λ : Type}

/-! ## Reading -/

/-- The table without entries. -/
def empty : Table Λ := ⟨[]⟩

/-- The meaning of a spelling. -/
def get? (t : Table Λ) (spelling : String) : Option (Construct Λ) :=
  (t.entries.find? fun entry => entry.1 == spelling).map Prod.snd

/-- Whether a spelling has a meaning. -/
def contains (t : Table Λ) (spelling : String) : Bool :=
  (t.get? spelling).isSome

/-- The spellings, in order. -/
def spellings (t : Table Λ) : List String :=
  t.entries.map Prod.fst

/-- The number of entries. -/
def size (t : Table Λ) : Nat :=
  t.entries.length

/-- The table with its labels as plain values. -/
def valued (t : Table) : Table Data :=
  ⟨t.entries.map fun entry => (entry.1, entry.2.valued)⟩

/-- The label of a construct, if it is a quantifier. -/
def quantifierLabel? : Construct Λ → Option Λ
  | .quantifier label => some label
  | _ => none

/-- The labels of the quantifiers, in the order of their spellings, aliases repeated. -/
def quantifierLabels (t : Table Λ) : List Λ :=
  t.entries.filterMap fun entry => quantifierLabel? entry.2

/-- Whether nodes with this label belong to a quantifier. -/
def isQuantifierLabel (t : Table) (label : String) : Bool :=
  t.quantifierLabels.contains label

/-- The labels of the quantifiers, each once, in increasing order. -/
def sortedQuantifierLabels (t : Table) : List String :=
  (t.quantifierLabels.mergeSort (· ≤ ·)).eraseReps

/-! ## Checking -/

/-- The first construct, with its spelling, that has a given label. -/
def firstWithLabel? (entries : List (String × Construct Data)) (label : Data) :
    Option (String × Construct Data) :=
  entries.find? fun entry => entry.2.label.same label

/-- Looks for an entry whose label was first used by another kind of construct. A label that may be no
key of a mapping cannot be looked up. -/
def checkLabels (entries : List (String × Construct Data)) : Except TableError Unit :=
  entries.forM fun (spelling, construct) =>
    if construct.label.isKey then
      match firstWithLabel? entries construct.label with
      | none => .ok ()
      | some (firstSpelling, first) =>
        if first.kind = construct.kind then .ok ()
        else .error (.sharedLabel construct.label first.kind firstSpelling construct.kind spelling)
    else .error (.labelIsNoKey construct.label)

/-- What every built table satisfies: spellings are not empty, no spelling occurs twice, and
constructs that share a label are of one kind. -/
structure WellFormed (t : Table Λ) : Prop where
  spelling_ne_empty : ∀ entry ∈ t.entries, entry.1 ≠ ""
  nodup_spellings : t.spellings.Nodup
  kind_eq_of_label_eq : ∀ a ∈ t.entries, ∀ b ∈ t.entries,
    a.2.label = b.2.label → a.2.kind = b.2.kind

/-! ## Building -/

/-- What stands under a key while a table is being built. -/
inductive Item where
  | construct (c : Construct Data)
  | plain (value : Data)
  deriving Repr

/-- Reads the mappings among the plain values as constructs. -/
def Item.read : Item → Except TableError Item
  | .plain (.map entries) =>
    match Construct.ofEntries entries with
    | .ok c => .ok (.construct c)
    | .error e => .error (.entry e)
  | item => .ok item

/-- The spelling that a key stands for. -/
def spellingOf (key : Data) : Except TableError String :=
  if key.isEmpty then .error .emptySpelling
  else if key.hasLongInteger then .error (.longSpelling key)
  else .ok key.plainText

/-- The construct under a key; the key itself has to be a spelling. -/
def checkItem (key : Data) (item : Item) : Except TableError (String × Construct Data) := do
  match ← item.read with
  | .plain value => throw (.notAConstruct key value)
  | .construct c => return (← spellingOf key, c)

/-- Sets the meaning of a spelling. A replaced spelling keeps its position. -/
def insert (entries : List (String × Construct Λ)) (entry : String × Construct Λ) :
    List (String × Construct Λ) :=
  insertKeyed (· == ·) entry.1 entry.2 entries

/-- The table of a list of keys and items, read and checked one after the other. -/
def ofItems (items : List (Data × Item)) : Except TableError (Table Data) := do
  let checked ← items.mapM fun item => checkItem item.1 item.2
  let entries := checked.foldl insert []
  checkLabels entries
  return ⟨entries⟩

/-- The table of a list of keys and plain values. -/
def ofData (entries : List (Data × Data)) : Except TableError (Table Data) :=
  ofItems (entries.map fun entry => (entry.1, .plain entry.2))

/-- The entries of a table as keys and items. -/
def items (t : Table Data) : List (Data × Item) :=
  t.entries.map fun entry => (.text entry.1, .construct entry.2)

/-- Reads an item and keeps its key. -/
def readItem (item : Data × Item) : Except TableError (Data × Item) := do
  return (item.1, ← item.2.read)

/-- Items laid over each other, a later one in the place of an earlier one with the same key. -/
def layOver (base new : List (Data × Item)) : List (Data × Item) :=
  new.foldl (fun merged item => insertKeyed Data.same item.1 item.2 merged) base

/-- The table with new items laid over its own entries. All new items are read before the merged list
is checked. -/
def extendItems (t : Table Data) (items : List (Data × Item)) : Except TableError (Table Data) := do
  let new ← items.mapM readItem
  -- Keys were laid over each other as values here, and are once more as spellings there.
  ofItems (layOver t.items new)

/-- The table with new entries laid over its own. -/
def extend (t : Table Data) (entries : List (Data × Data)) : Except TableError (Table Data) :=
  t.extendItems (entries.map fun entry => (entry.1, .plain entry.2))

/-! ## Views -/

/-- The spellings and the mappings that describe their meanings. -/
def toData (t : Table Data) : List (Data × Data) :=
  t.entries.map fun entry => (.text entry.1, entry.2.toData)

/-- Whether every entry of the first list has its like in the second table. -/
def includes (t : Table Data) (entries : List (String × Construct Data)) : Bool :=
  entries.all fun entry =>
    match t.get? entry.1 with
    | some c => c.same entry.2
    | none => false

/-- Whether two tables give the same meanings to the same spellings, in whatever order. -/
def same (s t : Table Data) : Bool :=
  s.size == t.size && s.includes t.entries

/-- A table inside a message. -/
def display (t : Table Data) : String :=
  let entries := t.entries.map fun entry => Text.quoted entry.1 ++ ": " ++ entry.2.display
  "SyntaxTable(\x7b" ++ String.intercalate ", " entries ++ "\x7d)"

end Table

end LatexLogic
