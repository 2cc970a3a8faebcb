import LatexLogic.Binding.Free

/-!
# Declared variables of metavariables

Each metavariable has one set of variables that it may have free. Every occurrence in a formula has
to declare the same set; order and repetition within a declaration do not matter. `Tree.strip`
checks this, collects the sets in the order in which the metavariables first occur, and replaces
the declared metavariables by their names.

`Tree.declaredEigenvariable?` looks for a declaration of an eigenvariable, which is an error because
eigenvariables are always free.
-/

set_option autoImplicit false

namespace LatexLogic

/-! ## Sets of variables -/

/-- Puts a variable at its place in an increasing list, unless it is there already. -/
def insertVariable (name : String) : List String → List String
  | [] => [name]
  | v :: vs =>
    if name < v then name :: v :: vs
    else if name = v then v :: vs
    else v :: insertVariable name vs

/-- The set of the variables in a list: each once, in increasing order. -/
def variableSet (names : List String) : List String :=
  names.foldr insertVariable []

/-- Metavariables with the sets of variables that they may have free, in order. -/
abbrev Declarations := List (String × List String)

namespace Declarations

/-- The set declared for a metavariable. -/
def get? (ds : Declarations) (name : String) : Option (List String) :=
  (ds.find? fun d => d.1 == name).map Prod.snd

/-- The first metavariable of one list for which another list declares a different set. -/
def conflict? (ds es : Declarations) : Option String :=
  (ds.find? fun d =>
    match es.get? d.1 with
    | some other => other ≠ d.2
    | none => false).map Prod.fst

/-- The first list, followed by the declarations of the metavariables that are new. -/
def merge (ds es : Declarations) : Declarations :=
  ds ++ es.filter fun e => (ds.get? e.1).isNone

end Declarations

namespace Tree

/-! ## Stripping -/

mutual

/-- The tree with metavariables in place of their declarations, and the declarations; or the first of
the metavariables found before an argument for which the argument declares a different set. -/
def strip : Tree → Except String (Tree × Declarations)
  | .atom label => .ok (.atom label, [])
  | .metavar name declared => .ok (.atom name, [(name, variableSet declared)])
  | .node label args =>
    match stripFrom [] args with
    | .ok (stripped, declarations) => .ok (.node label stripped, declarations)
    | .error name => .error name

/-- The stripped trees of a list, and their declarations added to those already found. -/
def stripFrom (found : Declarations) : List Tree → Except String (List Tree × Declarations)
  | [] => .ok ([], found)
  | t :: ts =>
    match strip t with
    | .error name => .error name
    | .ok (stripped, declarations) =>
      match found.conflict? declarations with
      | some name => .error name
      | none =>
        match stripFrom (found.merge declarations) ts with
        | .ok (rest, all) => .ok (stripped :: rest, all)
        | .error name => .error name

end

/-! ## Declarations as written -/

mutual

/-- The metavariables of a tree with the variables declared for them, in the order of reading. -/
def metavariables : Tree → List (String × List String)
  | .atom _ => []
  | .metavar name declared => [(name, declared)]
  | .node _ args => metavariablesList args

/-- The metavariables of a list of trees. -/
def metavariablesList : List Tree → List (String × List String)
  | [] => []
  | t :: ts => metavariables t ++ metavariablesList ts

end

/-- The first eigenvariable that is declared free, with the metavariable that declares it. -/
def declaredEigenvariable? (t : Tree) : Option (String × String) :=
  t.metavariables.findSome? fun (name, declared) =>
    (declared.find? isEigenvariable).map fun v => (v, name)

end Tree

end LatexLogic
