import LatexLogic.Binding.Bound
import LatexLogic.Binding.Declared
import LatexLogic.Formula.Reader.Level
import LatexLogic.Table.Standard
import LatexLogic.Token.Scan

/-!
# Parsing formulas

From the text of a formula to its tree and the declarations of its metavariables. A text of blanks
is no formula. The tokens have to make up one formula to the last of them, and then the tree has to
pass four checks in this order: no ordinary variable is free, each metavariable is declared with one
set of variables, no variable is bound twice, and no eigenvariable is declared free.

`Formula.parse` reads formulas of any depth. `Formula.parseWithin` allows a given depth of nesting,
both while reading and of the finished tree, and answers that a formula is too deep otherwise.
-/

set_option autoImplicit false

namespace LatexLogic

/-- A formula that passed all checks. -/
structure Formula where
  /-- The tree, in which metavariables are atoms. -/
  tree : Tree
  /-- The variables that each metavariable may have free, in the order of first occurrence. -/
  declarations : Declarations
  deriving DecidableEq, Repr

namespace Formula

/-- Checks a tree as it was read. -/
def ofTree (isQuantifier : String → Bool) (raw : Tree) : Except FormulaError Formula :=
  match raw.freeVariables isQuantifier with
  | free :: _ => .error (.freeVariable free)
  | [] =>
    match raw.strip with
    | .error name => .error (.inconsistentDeclarations name)
    | .ok (tree, declarations) =>
      match tree.boundVariables isQuantifier with
      | .error twice => .error (.doubleBound twice.sexpr)
      | .ok _ =>
        match raw.declaredEigenvariable? with
        | some (name, metavariable) => .error (.eigenvariableDeclaredFree name metavariable)
        | none => .ok ⟨tree, declarations⟩

/-- Reads one formula that uses up all tokens. -/
def treeOfTokens (depth : Nat) (tokens : List Token) : Except Failure Tree :=
  match (Level.ofDepth depth).formula Level.whole tokens with
  | .error failure _ => .error failure
  | .ok _ (t :: _) => .error (.fault (.badToken t.written none))
  | .ok tree [] => .ok tree

/-- Parses a text whose nesting does not exceed the given depth. -/
def parseWithin (depth : Nat) (table : Table) (text : String) : Except Failure Formula :=
  if text.toList.all Text.isBlank then .error (.fault .blank)
  else
    match treeOfTokens depth (tokenize table text) with
    | .error failure => .error failure
    | .ok raw =>
      -- A chain that folds to the left is read without nesting, but its tree is nested.
      if depth < raw.depth then .error .tooDeep
      else
        match ofTree table.isQuantifierLabel raw with
        | .error error => .error (.fault error)
        | .ok formula => .ok formula

/-- Parses a text of any nesting: a level of nesting takes at least one character. -/
def parse (table : Table) (text : String) : Except Failure Formula :=
  parseWithin (text.length + 1) table text

/-- The declarations of a formula in an exported result. -/
def declarationsData (ds : Declarations) : Data :=
  Data.object (ds.map fun d => (d.1, .list (d.2.map .text)))

/-- The entries that describe a formula in an exported result, given what its labels stand for. -/
def toEntries (value : String → Data) (f : Formula) : List (String × Data) :=
  [("kind", .text "success"), ("tree", f.tree.toDataWith value),
    ("allowed_subs", declarationsData f.declarations)]

end Formula

end LatexLogic
