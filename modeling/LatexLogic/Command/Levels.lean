import LatexLogic.Command.Run
import LatexLogic.Yaml.Document

/-!
# Counting levels

The host that the program is for itself: it reads YAML documents and counts levels of nesting. To
write a level of a tree takes two nested calls in one format and three in the other.
-/

set_option autoImplicit false

namespace LatexLogic.Command

/-- How deeply formulas may be nested in the program. -/
def levelLimits : Session.Limits :=
  .ofLevels 1000 fun
    | .json => 500
    | .sexpr => 333

/-- The program as a host. -/
def levelHost : Host where
  limits := levelLimits
  shows value := value.depth ≤ 950
  readDocument := Yaml.read

end LatexLogic.Command
