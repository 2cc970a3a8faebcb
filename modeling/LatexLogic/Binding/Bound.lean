import LatexLogic.Binding.Free

/-!
# Bound variables

No variable may be bound twice in a formula, neither inside the scope of a quantifier for the same
variable nor in two different arguments of one node. `Tree.boundVariables` collects the variables
that quantifier nodes bind, inner ones before outer ones and left ones before right ones. At the end
of each argument it reports the first of the variables found before that are bound in it again.

The variable of a quantifier node is its first argument, which may be any tree here.
-/

set_option autoImplicit false

namespace LatexLogic.Tree

mutual

/-- The variables bound in a tree, or one that is bound twice. -/
def boundVariables (isQuantifier : String → Bool) : Tree → Except Tree (List Tree)
  | .atom _ => .ok []
  | .metavar _ _ => .ok []
  | .node label [binder, scope] =>
    if isQuantifier label then
      match boundVariables isQuantifier scope with
      | .error twice => .error twice
      | .ok bound => if binder ∈ bound then .error binder else .ok (bound ++ [binder])
    else boundVariablesFrom isQuantifier [] [binder, scope]
  | .node _ args => boundVariablesFrom isQuantifier [] args

/-- The variables bound in a list of trees, after those already found. -/
def boundVariablesFrom (isQuantifier : String → Bool) (found : List Tree) :
    List Tree → Except Tree (List Tree)
  | [] => .ok found
  | t :: ts =>
    match boundVariables isQuantifier t with
    | .error twice => .error twice
    | .ok bound =>
      match found.find? fun v => v ∈ bound with
      | some shared => .error shared
      | none => boundVariablesFrom isQuantifier (found ++ bound) ts

end

end LatexLogic.Tree
