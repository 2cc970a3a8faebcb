import LatexLogic.Table.Basic

/-!
# The standard table

The table that formulas are read with unless another one is given: the propositional connectives,
the two truth constants, the two quantifiers and equality. Negation binds tightest, then conjunction
and disjunction, which fold to the left, then implication and equivalence, which fold to the right.
-/

set_option autoImplicit false

namespace LatexLogic.Table

/-- The standard syntax of first-order logic. -/
def standard : Table :=
  ⟨[("neg", .connective "not" (.prefixOp 4 .null)),
    ("land", .connective "and" (.infixOp 3 .left)),
    ("lor", .connective "or" (.infixOp 2 .left)),
    ("rightarrow", .connective "implies" (.infixOp 1 .right)),
    ("leftrightarrow", .connective "iff" (.infixOp 0 .right)),
    ("top", .connective "true" (.nullary none .null)),
    ("bot", .connective "false" (.nullary none .null)),
    ("exists", .quantifier "exists"),
    ("forall", .quantifier "forall"),
    ("=", .predicate "eq" .infixOp)]⟩

/-- The standard table is one that could be built. -/
theorem standard_wellFormed : standard.WellFormed where
  spelling_ne_empty := by decide
  nodup_spellings := by decide
  kind_eq_of_label_eq := by decide

end LatexLogic.Table
