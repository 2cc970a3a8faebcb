import LatexLogic.Formula.Parse
import LatexLogic.Table.Named

/-!
# Formulas over tables with any labels

A text is parsed with the names of a table's labels (`Table.named`). That is all there is to it as long
as the labels are texts. Other labels do not change what is read, but they can stand in the way of
what comes after. The checks on a tree take an atom that is no text for a node and look for arguments
in it (`Data.atomSort`), and the report of an accepted tree writes its labels down. What they run into
is no formula error, and neither is a wrong number of arguments whose message cannot be written; so
parsing ends in a formula, in a failure, or at an obstacle.

In a finished tree an atom that is no text has been taken apart and put together again
(`Construct.treeLabel`).
-/

set_option autoImplicit false

namespace LatexLogic

/-! ## Atoms -/

namespace Data

/-- What the checks on a tree make of an atom. One that is no text counts as a node: its first part is
the label, and the arguments are behind it. -/
inductive AtomSort where
  /-- A text, or a pair that ends in one. -/
  | text (label : String)
  /-- There is nothing behind the first part. -/
  | bare
  /-- There is no first part. -/
  | hollow
  /-- There are no parts, or those behind the first are no trees. -/
  | broken
  deriving DecidableEq, Repr

/-- The sort of an atom with a label of any kind. A pair has one argument, and the parts of a byte
string are numbers. -/
def atomSort : Data → AtomSort
  | .text label => .text label
  | .pair _ second => second.atomSort
  | .bytes [] => .hollow
  | .bytes [_] => .bare
  | _ => .broken

/-- An atom that has been taken apart and put together again. -/
def reassembled : Data → Data
  | .pair first second => .pair first second.reassembled
  | .bytes xs => .list (xs.map fun x => .int x.toNat)
  | value => value

/-- The expression of a label that consists of texts. -/
def expression : Data → String
  | .text s => s
  | .pair first second => Tree.parenthesised [first.expression, second.expression]
  | _ => ""

end Data

/-- The label of a construct as it is found in a finished tree. -/
def Construct.treeLabel : Construct Data → Data
  | .connective label (.nullary _ _) => label.reassembled
  | c => c.label

namespace Table

variable (t : Table Data)

/-- What a name in a finished tree stands for. -/
def treeLabelNamed : String → Data :=
  t.valueNamed Construct.treeLabel

/-- The sort of an atom with a name. -/
def atomSort (name : String) : Data.AtomSort :=
  (t.labelNamed name).atomSort

/-- The text that the checks find in an atom. Other atoms keep their name, which is no variable. -/
def atomText (name : String) : String :=
  match t.atomSort name with
  | .text label => label
  | _ => name

end Table

namespace Tree

mutual

/-- The tree with other atoms, and other labels at its nodes. -/
def relabelled (atomLabel nodeLabel : String → String) : Tree → Tree
  | .atom label => .atom (atomLabel label)
  | .metavar name declared => .metavar name declared
  | .node label args => .node (nodeLabel label) (relabelledList atomLabel nodeLabel args)

/-- The trees of a list with other labels. -/
def relabelledList (atomLabel nodeLabel : String → String) : List Tree → List Tree
  | [] => []
  | t :: ts => relabelled atomLabel nodeLabel t :: relabelledList atomLabel nodeLabel ts

end

mutual

/-- Whether stripping the tree comes to an atom of some sort before it finds that a metavariable is
declared apart. -/
def stripMeets (isMet : String → Bool) : Tree → Bool
  | .atom label => isMet label
  | .metavar _ _ => false
  | .node _ args => stripMeetsFrom isMet [] args

/-- The same for the trees in a list, behind what declared the metavariables found. -/
def stripMeetsFrom (isMet : String → Bool) (found : Declarations) : List Tree → Bool
  | [] => false
  | t :: ts =>
    stripMeets isMet t ||
      match strip t with
      | .error _ => false
      | .ok (_, declarations) =>
        match found.conflict? declarations with
        | some _ => false
        | none => stripMeetsFrom isMet (found.merge declarations) ts

end

end Tree

/-! ## Parsing -/

namespace Formula

/-- What is met in place of a formula. -/
inductive Problem where
  /-- A formula error, or nesting that is too deep. -/
  | failure (failure : Failure)
  | obstacle (obstacle : Obstacle)
  deriving DecidableEq, Repr

/-- The tree as which a text is read, before any checks. -/
def rawTree? (table : Table) (text : String) : Option Tree :=
  (treeOfTokens (text.length + 1) (tokenize table text)).toOption

/-- What the checks run into at the atoms of a tree. All of them are looked at for the free variables,
and these are reported before the tree is put together again. -/
def atomProblem? (table : Table Data) (raw : Tree) : Option Problem :=
  if raw.atoms.any fun name => table.atomSort name = .broken then some (.obstacle .sort)
  else
    match (raw.relabelled table.atomText id).freeVariables table.named.isQuantifierLabel with
    | free :: _ => some (.failure (.fault (.freeVariable free)))
    | [] =>
      if raw.stripMeets fun name => table.atomSort name = .hollow then some (.obstacle .sort)
      else none

/-- Whether a label in a tree has a number with too many digits to be written. -/
def hasLongLabel (table : Table Data) (formula : Formula) : Bool :=
  formula.tree.labels.any fun name => (table.labelNamed name).hasLongInteger

/-- What becomes of a result once its error or its tree is written down. -/
def written (table : Table Data) : Except Failure Formula → Except Problem Formula
  | .error (.fault error) =>
    .error (if error.hasLongNumber then .obstacle .digits else .failure (.fault error))
  | .error .tooDeep => .error (.failure .tooDeep)
  | .ok formula => if hasLongLabel table formula then .error (.obstacle .digits) else .ok formula

/-- Parses a text with a table of any labels. -/
def parseLabelled (table : Table Data) (text : String) : Except Problem Formula :=
  match (rawTree? table.named text).bind (atomProblem? table) with
  | some problem => .error problem
  | none => written table (parse table.named text)

/-- The expression of a formula over a table of any labels. -/
def expression (table : Table Data) (formula : Formula) : String :=
  let label (name : String) : String := (table.treeLabelNamed name).expression
  (formula.tree.relabelled label label).sexpr

end Formula

end LatexLogic
