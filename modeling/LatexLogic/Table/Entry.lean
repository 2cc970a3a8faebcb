import LatexLogic.Table.Construct
import LatexLogic.Data.Display

/-!
# Entries of a syntax table

Reading a construct from the mapping that describes it. The checks come in a fixed order, and the
first that fails names the error: the kind, unknown fields, missing fields, and then the checks of
the kind. A connective is asked for its style, its precedence and its side; a predicate or function
for its arity, its precedence, its style and again its arity.

Numbers of the wrong sort are errors here, truth values included: a precedence or an arity is an
integer or is absent. The label is not asked for anything; an entry without a value for it has the
label null.

Most errors have a message, and are reported by it. Where the message cannot be written, or an entry
is malformed beyond what the checks look for, something else is met (`EntryError.obstacle?`).
-/

set_option autoImplicit false

namespace LatexLogic

/-- Why a mapping describes no construct. -/
inductive EntryError where
  | unknownKind (kind : Data)
  | kindIsNoKey (kind : Data)
  | unexpectedFields (kind : Kind) (names : List Data)
  | unorderedFields (kind : Kind) (names : List Data)
  | incomplete (kind : Kind) (fields : List (Data × Data))
  | unknownStyle (kind : Kind) (style : Data)
  | notAnInteger (kind : Kind) (label : Data) (field : String) (value : Data)
  | connectiveNeedsPrecedence (label : Data)
  | connectiveNeedsSide (label : Data)
  | functionNeedsPrecedence (label : Data)
  | infixArity (kind : Kind) (label arity : Data)
  | noArguments (kind : Kind) (label : Data)
  deriving Repr

namespace EntryError

/-- The values that are written into the message of an error, in order. -/
def shown : EntryError → List Data
  | unknownKind kind => [kind]
  | unexpectedFields _ names => names
  | incomplete _ fields => [.map fields]
  | unknownStyle _ style => [style]
  | notAnInteger _ label _ value => [label, value]
  | connectiveNeedsPrecedence label | connectiveNeedsSide label | functionNeedsPrecedence label
  | noArguments _ label => [label]
  | infixArity _ label arity => [label, arity]
  | kindIsNoKey _ | unorderedFields _ _ => []

/-- What an error says of these values, where that is fixed. -/
def wording? : EntryError → Option String
  | unknownKind kind =>
    let names := Data.list (Kind.all.map fun kind => .text kind.name)
    some ("Unknown construct kind: " ++ kind.plainText ++ ". Available: " ++ names.display)
  | kindIsNoKey _ => none
  | unexpectedFields kind names =>
    some ("Unexpected fields for " ++ kind.name ++ ": " ++ (Data.list names).display)
  | unorderedFields _ _ => none
  | incomplete _ _ => none
  | unknownStyle kind style => some ("Unknown " ++ kind.name ++ " style: " ++ style.plainText)
  | notAnInteger kind label field value =>
    some (kind.title ++ " " ++ label.plainText ++ ": " ++ field ++ " must be an integer, not " ++
      value.display)
  | connectiveNeedsPrecedence label =>
    some ("Connective " ++ label.plainText ++ " needs a precedence")
  | connectiveNeedsSide label =>
    some ("Infix connective " ++ label.plainText ++ " needs associativity 'left' or 'right'")
  | functionNeedsPrecedence label =>
    some ("Infix function " ++ label.plainText ++ " needs a precedence")
  | infixArity kind label arity =>
    some ("Infix " ++ kind.name ++ " " ++ label.plainText ++ " must have arity 2, not " ++
      arity.display)
  | noArguments kind label =>
    some (kind.title ++ " " ++ label.plainText ++ " must take at least one argument")

/-- The message of an error, where it has one. -/
def message? (e : EntryError) : Option String :=
  e.wording?.map (Data.messageShowing e.shown)

/-- Whether the entry is malformed beyond what the checks look for: its kind is a list or mapping, or
its unknown fields have no common order. -/
def isMalformed : EntryError → Bool
  | kindIsNoKey _ | unorderedFields _ _ => true
  | _ => false

/-- What is met in place of the error: for a malformed entry a value of the wrong sort, and otherwise
what stands in the way of the message. -/
def obstacle? (shows : Data → Bool) (e : EntryError) : Option Obstacle :=
  if e.isMalformed then some .sort else Data.writingObstacle? shows e.shown

/-- Whether a table reports the error. -/
def isReported (shows : Data → Bool) (e : EntryError) : Bool :=
  (e.obstacle? shows).all Obstacle.isReported

end EntryError

/-- The fields that a construct of a kind may have beside the kind itself. -/
def Kind.fieldNames : Kind → List String
  | .connective => ["label", "style", "precedence", "associativity"]
  | .quantifier => ["label"]
  | .predicate => ["label", "style", "arity"]
  | .function => ["label", "style", "arity", "precedence"]

/-- The fields that a construct of a kind must have. -/
def Kind.requiredFields : Kind → List String
  | .connective => ["label", "style"]
  | .quantifier => ["label"]
  | .predicate => ["label", "style", "arity"]
  | .function => ["label", "style", "arity"]

namespace Construct

/-! ## Checks of single fields -/

/-- Whether a key is the kind or a field of the kind. -/
def isKnownField (kind : Kind) : Data → Bool
  | .text name => name == "kind" || kind.fieldNames.contains name
  | _ => false

/-- The value of a field, null where it is absent. -/
def fieldValue (entries : List (Data × Data)) (name : String) : Data :=
  (Data.field? entries name).getD .null

/-- The fields of an entry beside its kind. -/
def withoutKind (entries : List (Data × Data)) : List (Data × Data) :=
  entries.filter fun entry => !Data.same entry.1 (.text "kind")

/-- An integer or nothing; any other value is refused. -/
def checkInteger (kind : Kind) (label : Data) (field : String) :
    Data → Except EntryError (Option Int)
  | .null => .ok none
  | .int n => .ok (some n)
  | value => .error (.notAnInteger kind label field value)

/-- The kind that an entry names. -/
def checkKind (entries : List (Data × Data)) : Except EntryError Kind :=
  match fieldValue entries "kind" with
  | .text name =>
    match Kind.ofName? name with
    | some kind => .ok kind
    | none => .error (.unknownKind (.text name))
  | kind => if kind.isKey then .error (.unknownKind kind) else .error (.kindIsNoKey kind)

/-- Refuses fields that the kind does not have, naming all of them in order. -/
def checkFieldNames (kind : Kind) (entries : List (Data × Data)) : Except EntryError Unit :=
  let names := (entries.map Prod.fst).filter fun name => !isKnownField kind name
  if names.isEmpty then .ok ()
  else if Data.comparable names then .error (.unexpectedFields kind (names.mergeSort Data.le))
  else .error (.unorderedFields kind names)

/-- Refuses an entry that lacks a required field. -/
def checkRequired (kind : Kind) (entries : List (Data × Data)) : Except EntryError Unit :=
  if kind.requiredFields.all fun name => (Data.field? entries name).isSome then .ok ()
  else .error (.incomplete kind (withoutKind entries))

/-! ## Checks of each kind -/

/-- The connective that an entry describes. -/
def connectiveOf (label style precedence associativity : Data) :
    Except EntryError ConnectiveForm := do
  let readPrecedence : Except EntryError Int := do
    match ← checkInteger .connective label "precedence" precedence with
    | some n => .ok n
    | none => .error (.connectiveNeedsPrecedence label)
  match style with
  | .text "nullary" =>
    return .nullary (← checkInteger .connective label "precedence" precedence) associativity
  | .text "prefix" => return .prefixOp (← readPrecedence) associativity
  | .text "infix" =>
    let n ← readPrecedence
    match associativity with
    | .text "left" => return .infixOp n .left
    | .text "right" => return .infixOp n .right
    | _ => throw (.connectiveNeedsSide label)
  | _ => throw (.unknownStyle .connective style)

/-- The positions that a predicate or function can have, with the arity of the first. -/
inductive Position where
  | front (arity : Nat) (positive : 0 < arity)
  | between

/-- The position of a predicate or function. An arity is required in front of the arguments, and
between them it has to be two. The fields of the entry are there to be shown where it is missing. -/
def positionOf (kind : Kind) (label : Data) (fields : List (Data × Data)) (style : Data)
    (arity : Option Int) : Except EntryError Position :=
  match style with
  | .text "prefix" =>
    match arity with
    | none => .error (.incomplete kind fields)
    | some n => if h : 0 < n.toNat then .ok (.front n.toNat h) else .error (.noArguments kind label)
  | .text "infix" =>
    if arity = some 2 then .ok .between
    else .error (.infixArity kind label (optionalInt arity))
  | _ => .error (.unknownStyle kind style)

/-- The predicate that an entry describes. -/
def predicateOf (label : Data) (fields : List (Data × Data)) (style arity : Data) :
    Except EntryError PredicateForm := do
  let arity ← checkInteger .predicate label "arity" arity
  match ← positionOf .predicate label fields style arity with
  | .front n h => return .prefixOp n h
  | .between => return .infixOp

/-- The function that an entry describes. -/
def functionOf (label : Data) (fields : List (Data × Data)) (style arity precedence : Data) :
    Except EntryError FunctionForm := do
  let arity ← checkInteger .function label "arity" arity
  let precedence ← checkInteger .function label "precedence" precedence
  match ← positionOf .function label fields style arity with
  | .front n h => return .prefixOp n h precedence
  | .between =>
    match precedence with
    | some n => return .infixOp n
    | none => throw (.functionNeedsPrecedence label)

/-- The construct that a mapping describes. -/
def ofEntries (entries : List (Data × Data)) : Except EntryError (Construct Data) := do
  let kind ← checkKind entries
  checkFieldNames kind entries
  checkRequired kind entries
  let value := fieldValue entries
  let fields := withoutKind entries
  let label := value "label"
  match kind with
  | .connective =>
    return .connective label
      (← connectiveOf label (value "style") (value "precedence") (value "associativity"))
  | .quantifier => return .quantifier label
  | .predicate =>
    return .predicate label (← predicateOf label fields (value "style") (value "arity"))
  | .function =>
    return .function label
      (← functionOf label fields (value "style") (value "arity") (value "precedence"))

end Construct

end LatexLogic
