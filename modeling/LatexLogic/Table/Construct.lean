import LatexLogic.Data.Json

/-!
# Constructs

What a spelling can mean: a connective, a quantifier, a predicate or a function, each with the label
that its nodes carry. A connective stands alone, in front of one formula, or between two; predicates
and functions stand in front of their arguments or between two terms. Precedences are integers of
any size; a larger one binds tighter.

Formulas are read with labels that are texts, and `Construct` alone means one with such a label. The
entries of a table may carry any plain value as their label (`Construct Data`), since nothing asks
for more than that values can be told apart; a text as a label is one of these (`Construct.valued`).

`Construct.fields` lists the fields of a construct in a fixed order, and every other view of it (the
mapping, the display form, equality) is read off that list. `Construct.powers?` gives the binding
powers by which formulas and terms are read.
-/

set_option autoImplicit false

namespace LatexLogic

/-- The four kinds of construct. -/
inductive Kind where
  | connective
  | quantifier
  | predicate
  | function
  deriving DecidableEq, Repr

namespace Kind

/-- All kinds, in the order in which messages list them. -/
def all : List Kind :=
  [connective, quantifier, predicate, function]

/-- The name of a kind. -/
def name : Kind → String
  | connective => "connective"
  | quantifier => "quantifier"
  | predicate => "predicate"
  | function => "function"

/-- The name of a kind at the start of a sentence. -/
def title : Kind → String
  | connective => "Connective"
  | quantifier => "Quantifier"
  | predicate => "Predicate"
  | function => "Function"

/-- The kind of a given name. -/
def ofName? (name : String) : Option Kind :=
  all.find? fun kind => kind.name = name

end Kind

/-- To which side a run of infix connectives of one precedence folds. -/
inductive Side where
  | left
  | right
  deriving DecidableEq, Repr

/-- The name of a side. -/
def Side.name : Side → String
  | left => "left"
  | right => "right"

/-- The shapes of a connective. Only between two formulas does the side matter; elsewhere a table
may note any value, which is kept and shown but has no effect. -/
inductive ConnectiveForm where
  | nullary (precedence : Option Int) (note : Data)
  | prefixOp (precedence : Int) (note : Data)
  | infixOp (precedence : Int) (side : Side)
  deriving Repr

/-- The shapes of a predicate. In front of its arguments it takes at least one. -/
inductive PredicateForm where
  | prefixOp (arity : Nat) (positive : 0 < arity)
  | infixOp
  deriving DecidableEq, Repr

/-- The shapes of a function. A precedence in front of the arguments is kept but has no effect. -/
inductive FunctionForm where
  | prefixOp (arity : Nat) (positive : 0 < arity) (precedence : Option Int)
  | infixOp (precedence : Int)
  deriving DecidableEq, Repr

/-- The meaning of a spelling. -/
inductive Construct (Λ : Type := String) where
  | connective (label : Λ) (form : ConnectiveForm)
  | quantifier (label : Λ)
  | predicate (label : Λ) (form : PredicateForm)
  | function (label : Λ) (form : FunctionForm)
  deriving Repr

namespace Construct

variable {Λ Μ : Type}

/-- The kind of a construct. -/
def kind : Construct Λ → Kind
  | connective _ _ => .connective
  | quantifier _ => .quantifier
  | predicate _ _ => .predicate
  | function _ _ => .function

/-- The label that the nodes of a construct carry. -/
def label : Construct Λ → Λ
  | connective label _ => label
  | quantifier label => label
  | predicate label _ => label
  | function label _ => label

/-- The construct with another label. -/
def withLabel (label : Μ) : Construct Λ → Construct Μ
  | connective _ form => .connective label form
  | quantifier _ => .quantifier label
  | predicate _ form => .predicate label form
  | function _ form => .function label form

/-- The construct with its label as a plain value. -/
def valued (c : Construct) : Construct Data :=
  c.withLabel (.text c.label)

@[simp] theorem kind_withLabel (label : Μ) (c : Construct Λ) :
    (c.withLabel label).kind = c.kind := by
  cases c <;> rfl

@[simp] theorem label_withLabel (label : Μ) (c : Construct Λ) :
    (c.withLabel label).label = label := by
  cases c <;> rfl

@[simp] theorem withLabel_label (c : Construct Λ) : c.withLabel c.label = c := by
  cases c <;> rfl

@[simp] theorem withLabel_withLabel {Ν : Type} (label : Μ) (other : Ν) (c : Construct Λ) :
    (c.withLabel label).withLabel other = c.withLabel other := by
  cases c <;> rfl

@[simp] theorem kind_valued (c : Construct) : c.valued.kind = c.kind :=
  kind_withLabel _ c

@[simp] theorem label_valued (c : Construct) : c.valued.label = .text c.label :=
  label_withLabel _ c

/-- The name of a construct's position relative to its arguments. A quantifier has none. -/
def style? : Construct Λ → Option String
  | connective _ (.nullary _ _) => some "nullary"
  | connective _ (.prefixOp _ _) => some "prefix"
  | connective _ (.infixOp _ _) => some "infix"
  | quantifier _ => none
  | predicate _ (.prefixOp _ _) => some "prefix"
  | predicate _ .infixOp => some "infix"
  | function _ (.prefixOp _ _ _) => some "prefix"
  | function _ (.infixOp _) => some "infix"

/-- The number of arguments of a construct's nodes. A quantifier has two: variable and scope. -/
def arity : Construct Λ → Nat
  | connective _ (.nullary _ _) => 0
  | connective _ (.prefixOp _ _) => 1
  | connective _ (.infixOp _ _) => 2
  | quantifier _ => 2
  | predicate _ (.prefixOp arity _) => arity
  | predicate _ .infixOp => 2
  | function _ (.prefixOp arity _ _) => arity
  | function _ (.infixOp _) => 2

/-! ## Fields -/

/-- An integer, or null where there is none. -/
def optionalInt : Option Int → Data
  | none => .null
  | some n => .int n

/-- The fields of a construct in the order in which they are shown, absent ones as null. -/
def fields : Construct Data → List (String × Data)
  | connective label form =>
    let (style, precedence, associativity) : String × Data × Data :=
      match form with
      | .nullary precedence note => ("nullary", optionalInt precedence, note)
      | .prefixOp precedence note => ("prefix", .int precedence, note)
      | .infixOp precedence side => ("infix", .int precedence, .text side.name)
    [("label", label), ("style", .text style), ("precedence", precedence),
      ("associativity", associativity)]
  | quantifier label => [("label", label)]
  | predicate label form =>
    let (style, arity) : String × Nat :=
      match form with
      | .prefixOp arity _ => ("prefix", arity)
      | .infixOp => ("infix", 2)
    [("label", label), ("style", .text style), ("arity", .int arity)]
  | function label form =>
    let (style, arity, precedence) : String × Nat × Data :=
      match form with
      | .prefixOp arity _ precedence => ("prefix", arity, optionalInt precedence)
      | .infixOp precedence => ("infix", 2, .int precedence)
    [("label", label), ("style", .text style), ("arity", .int arity),
      ("precedence", precedence)]

/-- Whether a field has a value. -/
def isPresent : Data → Bool
  | .null => false
  | _ => true

/-- The entries of the mapping that describes a construct: its kind and the fields that have a
value. -/
def toEntries (c : Construct Data) : List (String × Data) :=
  ("kind", .text c.kind.name) :: c.fields.filter fun field => isPresent field.2

/-- The mapping that describes a construct. -/
def toData (c : Construct Data) : Data :=
  Data.object c.toEntries

/-- Whether two constructs are of one kind and have the same fields. -/
def same (a b : Construct Data) : Bool :=
  a.kind == b.kind && Data.same (Data.object a.fields) (Data.object b.fields)

/-- A construct inside a message: its kind applied to its fields. -/
def display (c : Construct Data) : String :=
  let fields := c.fields.map fun field => field.1 ++ "=" ++ field.2.display
  c.kind.title ++ "(" ++ String.intercalate ", " fields ++ ")"

/-! ## Binding powers -/

/-- The power of a side on which a construct takes no argument. -/
def noPower : Int := -1

/-- Left and right binding power of a connective. Four powers belong to each precedence. An infix
connective that folds to the right takes a right argument of its own power, one that folds to the
left does not; and it binds tighter to the left than one that folds to the right. -/
def connectivePowers : ConnectiveForm → Int × Int
  | .nullary _ _ => (noPower, noPower)
  | .prefixOp precedence _ => (noPower, 4 * precedence)
  | .infixOp precedence .left => (4 * precedence + 2, 4 * precedence + 3)
  | .infixOp precedence .right => (4 * precedence + 1, 4 * precedence)

/-- Left and right binding power of a function. Two powers belong to each precedence, and all infix
functions fold to the left. -/
def functionPowers : FunctionForm → Int × Int
  | .prefixOp _ _ _ => (noPower, noPower)
  | .infixOp precedence => (2 * precedence, 2 * precedence + 1)

/-- The binding powers of connectives and functions. -/
def powers? : Construct Λ → Option (Int × Int)
  | connective _ form => some (connectivePowers form)
  | function _ form => some (functionPowers form)
  | _ => none

end Construct

end LatexLogic
