import LatexLogic.Formula.Reader.Basic
import LatexLogic.Formula.Tree

/-!
# Runs of infix operators

Formulas and terms are both made of operands with infix operators between them, and both are read in
the same way. Every operator has a binding power on each side. A run is read up to a threshold: an
operator whose left power reaches the threshold takes what was read so far as its left argument, and
its right power is the threshold for reading its right argument. The first operator below the
threshold ends the run and is left to the reader outside.
-/

set_option autoImplicit false

namespace LatexLogic

/-- The least left power that still continues a run of operators. -/
inductive Threshold where
  | power (least : Int)
  /-- No operator continues the run. -/
  | unreachable
  deriving DecidableEq, Repr

/-- Whether an operator of this left power continues the run. -/
def Threshold.admits : Threshold → Int → Bool
  | power least, left => least ≤ left
  | unreachable, _ => false

/-- An operator between its two arguments. -/
structure InfixOperator where
  /-- The label of its nodes. -/
  label : String
  /-- The power with which it takes its left argument. -/
  leftPower : Int
  /-- The threshold for its right argument. -/
  rightPower : Int
  deriving DecidableEq, Repr

namespace Token

/-- The connective between two formulas that a token stands for. -/
def infixConnective? : Token → Option InfixOperator
  | known _ (.connective label (.infixOp precedence side)) =>
    let (left, right) := Construct.connectivePowers (.infixOp precedence side)
    some ⟨label, left, right⟩
  | _ => none

/-- The function between two terms that a token stands for. -/
def infixFunction? : Token → Option InfixOperator
  | known _ (.function label (.infixOp precedence)) =>
    let (left, right) := Construct.functionPowers (.infixOp precedence)
    some ⟨label, left, right⟩
  | _ => none

end Token

namespace Reader

/-- The operator that continues a run at the given tokens. -/
def continuing? (operator? : Token → Option InfixOperator) (threshold : Threshold) :
    List Token → Option InfixOperator
  | [] => none
  | t :: _ => (operator? t).filter fun op => threshold.admits op.leftPower

/-- Reads the operators that continue a run after `tree`, each with its right argument, at most the
given number of times. -/
def infixRun (operator? : Token → Option InfixOperator) (operand : Threshold → Reader Tree)
    (threshold : Threshold) : (limit : Nat) → Tree → Reader Tree
  | 0, tree => return tree
  | limit + 1, tree => do
    match continuing? operator? threshold (← get) with
    | none => return tree
    | some op =>
      let _ ← next?
      let right ← operand (.power op.rightPower)
      infixRun operator? operand threshold limit (.node op.label [tree, right])

/-- Reads the operators that continue a run after `tree`. No more operators can follow than
tokens. -/
def infixRest (operator? : Token → Option InfixOperator) (operand : Threshold → Reader Tree)
    (threshold : Threshold) (tree : Tree) : Reader Tree := do
  infixRun operator? operand threshold (← get).length tree

end Reader

end LatexLogic
