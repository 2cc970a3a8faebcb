import LatexLogic.Formula.Error

/-!
# Formula trees

The result of reading a formula. An atom is a label: a variable, the label of a truth constant, or
the name of a metavariable. A node carries the label of an operator and the trees of its arguments.
As long as its declaration is of interest, a metavariable is kept together with the variables it was
declared to have free; checking the declarations strips it down to its name.

Two exports are defined here: `Tree.sexpr`, the fully parenthesised expression with the label in
front, and `Tree.toData`, the nested list. `Tree.plainText` is the form of a tree inside a message.
Where labels stand for other values, `Tree.toDataWith` writes these values into the nested list.
-/

set_option autoImplicit false

namespace LatexLogic

/-- A tree of atoms, declared metavariables and operator nodes. -/
inductive Tree where
  | atom (label : String)
  | metavar (name : String) (declared : List String)
  | node (label : String) (args : List Tree)
  deriving Repr, Inhabited

namespace Tree

/-! ## Equality -/

mutual

/-- Equality of trees is decided along their shape. -/
def decEq : (s t : Tree) → Decidable (s = t)
  | .atom a, .atom b =>
    if h : a = b then isTrue (h ▸ rfl) else isFalse fun e => h (Tree.atom.inj e)
  | .metavar a vs, .metavar b ws =>
    if h : a = b ∧ vs = ws then isTrue (by rw [h.1, h.2])
    else isFalse fun e => h (Tree.metavar.inj e)
  | .node a ss, .node b ts =>
    if h : a = b then
      match decEqList ss ts with
      | isTrue hs => isTrue (by rw [h, hs])
      | isFalse hs => isFalse fun e => hs (Tree.node.inj e).2
    else isFalse fun e => h (Tree.node.inj e).1
  | .atom _, .metavar _ _ => isFalse nofun
  | .atom _, .node _ _ => isFalse nofun
  | .metavar _ _, .atom _ => isFalse nofun
  | .metavar _ _, .node _ _ => isFalse nofun
  | .node _ _, .atom _ => isFalse nofun
  | .node _ _, .metavar _ _ => isFalse nofun

/-- Equality of argument lists. -/
def decEqList : (ss ts : List Tree) → Decidable (ss = ts)
  | [], [] => isTrue rfl
  | s :: ss, t :: ts =>
    match decEq s t with
    | isTrue h =>
      match decEqList ss ts with
      | isTrue hs => isTrue (by rw [h, hs])
      | isFalse hs => isFalse fun e => hs (List.cons.inj e).2
    | isFalse h => isFalse fun e => h (List.cons.inj e).1
  | [], _ :: _ => isFalse nofun
  | _ :: _, [] => isFalse nofun

end

instance : DecidableEq Tree := decEq

/-! ## Application -/

/-- The node of an operator over its arguments, if their number is the arity. The error names the
operator by the symbol that was written for it, or by its label where no symbol is known. -/
def applied (symbol label : String) (arity : Int) (args : List Tree) : Except FormulaError Tree :=
  if args.length = arity then .ok (.node label args)
  else .error (.ofCount (if symbol.isEmpty then label else symbol) arity args.length)

/-! ## Depth -/

mutual

/-- How many nodes stand above each other on the longest branch. -/
def depth : Tree → Nat
  | .atom _ => 0
  | .metavar _ _ => 0
  | .node _ args => depthList args + 1

/-- The largest depth of the trees in a list. -/
def depthList : List Tree → Nat
  | [] => 0
  | t :: ts => max (depth t) (depthList ts)

end

/-! ## Labels -/

mutual

/-- The atoms of a tree, from left to right. -/
def atoms : Tree → List String
  | .atom label => [label]
  | .metavar _ _ => []
  | .node _ args => atomsList args

/-- The atoms of a list of trees. -/
def atomsList : List Tree → List String
  | [] => []
  | t :: ts => atoms t ++ atomsList ts

end

/-- The atoms of a list of trees are those of its members. -/
theorem mem_atomsList {label : String} {ts : List Tree} :
    label ∈ atomsList ts ↔ ∃ t ∈ ts, label ∈ t.atoms := by
  induction ts with
  | nil => simp [atomsList]
  | cons t ts ih => simp [atomsList, ih]

mutual

/-- The labels of atoms and nodes, a node before its arguments. -/
def labels : Tree → List String
  | .atom label => [label]
  | .metavar _ _ => []
  | .node label args => label :: labelsList args

/-- The labels in a list of trees. -/
def labelsList : List Tree → List String
  | [] => []
  | t :: ts => labels t ++ labelsList ts

end

/-! ## Exports -/

/-- The label that marks a declared metavariable in the exports. -/
def metavarLabel : String := "_metavar"

/-- A label and its arguments as one parenthesised expression; single spaces stand between the
parts. -/
def parenthesised (parts : List String) : String :=
  "( " ++ String.intercalate " " parts ++ " )"

mutual

/-- The fully parenthesised expression of a tree, such as `( and phi ( not psi ) )`. -/
def sexpr : Tree → String
  | .atom label => label
  | .metavar name declared => parenthesised (metavarLabel :: name :: declared)
  | .node label args => parenthesised (label :: sexprList args)

/-- The expressions of a list of trees. -/
def sexprList : List Tree → List String
  | [] => []
  | t :: ts => sexpr t :: sexprList ts

end

/-- The arguments of a node are written one by one. -/
theorem sexprList_eq_map (ts : List Tree) : sexprList ts = ts.map sexpr := by
  induction ts with
  | nil => rfl
  | cons t ts ih => simp only [sexprList, List.map_cons, ih]

mutual

/-- The nested list of a tree, given what the labels stand for: a node is the list of its label and
its arguments. -/
def toDataWith (value : String → Data) : Tree → Data
  | .atom label => value label
  | .metavar name declared => .list (.text metavarLabel :: .text name :: declared.map .text)
  | .node label args => .list (value label :: toDataListWith value args)

/-- The nested lists of a list of trees. -/
def toDataListWith (value : String → Data) : List Tree → List Data
  | [] => []
  | t :: ts => toDataWith value t :: toDataListWith value ts

end

/-- The arguments of a node are converted one by one. -/
theorem toDataListWith_eq_map (value : String → Data) (ts : List Tree) :
    toDataListWith value ts = ts.map (toDataWith value) := by
  induction ts with
  | nil => rfl
  | cons t ts ih => simp only [toDataListWith, List.map_cons, ih]

/-- The nested list of a tree. -/
def toData (t : Tree) : Data :=
  t.toDataWith .text

theorem toData_node (label : String) (args : List Tree) :
    (node label args).toData = .list (.text label :: args.map toData) := by
  rw [toData, toDataWith, toDataListWith_eq_map]
  rfl

/-! ## Messages -/

/-- Parts between parentheses. A comma follows a part that stands alone. -/
def displayParts : List String → String
  | [part] => "(" ++ part ++ ",)"
  | parts => "(" ++ String.intercalate ", " parts ++ ")"

mutual

/-- The form of a tree inside another one in a message. -/
def display : Tree → String
  | .atom label => Text.quoted label
  | .metavar name declared =>
    "MetavarNode(name=" ++ Text.quoted name ++ ", free_vars=" ++
      displayParts (declared.map Text.quoted) ++ ")"
  | .node label args => displayParts (Text.quoted label :: displayList args)

/-- The forms of the trees in a list. -/
def displayList : List Tree → List String
  | [] => []
  | t :: ts => display t :: displayList ts

end

/-- The form of a tree inside a message: an atom is its label. -/
def plainText : Tree → String
  | .atom label => label
  | t => t.display

end Tree

end LatexLogic
