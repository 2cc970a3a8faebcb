import LatexLogic.Proofs.Table.Read

/-!
# Powers of constructs that were read

Binding powers are computed from a precedence, which not every construct has. Whatever entry a
construct was read from, its powers are those of a construct that takes no part in comparisons, or
the entry notes an integer as the precedence and the powers are computed from this integer
(`Construct.powersFrom_of_ofEntries`). No other value gets through: a truth value is no integer, and
an absent precedence is accepted only where no power depends on it.
-/

set_option autoImplicit false

namespace LatexLogic

namespace Construct

/-! ## Powers -/

/-- The powers of a construct without a power, or those of an integer that is the precedence. -/
def PowersFrom (precedence : Data) (powers : Int × Int) : Prop :=
  powers = (noPower, noPower) ∨ ∃ n, precedence = .int n ∧
    powers ∈ [(noPower, 4 * n), (4 * n + 2, 4 * n + 3), (4 * n + 1, 4 * n), (2 * n, 2 * n + 1)]

/-- The powers of a construct are computed from the precedence that it shows. -/
theorem powersFrom_shownValue (c : Construct Data) {powers : Int × Int}
    (hpowers : c.powers? = some powers) : PowersFrom (c.shownValue "precedence") powers := by
  cases c with
  | connective label form =>
    obtain rfl := Option.some.inj hpowers
    cases form with
    | nullary precedence note => exact Or.inl rfl
    | prefixOp n note => exact Or.inr ⟨n, rfl, by simp [connectivePowers]⟩
    | infixOp n side =>
      refine Or.inr ⟨n, rfl, ?_⟩
      cases side <;> simp [connectivePowers]
  | function label form =>
    obtain rfl := Option.some.inj hpowers
    cases form with
    | prefixOp arity positive precedence => exact Or.inl rfl
    | infixOp n => exact Or.inr ⟨n, rfl, by simp [functionPowers]⟩
  | quantifier label => cases hpowers
  | predicate label form => cases hpowers

/-- The powers of a construct that was read from an entry are those of a construct without a power,
or are computed from an integer that the entry notes as the precedence. -/
theorem powersFrom_of_ofEntries {entries : List (Data × Data)} {c : Construct Data}
    (h : ofEntries entries = .ok c) {powers : Int × Int} (hpowers : c.powers? = some powers) :
    PowersFrom (fieldValue entries "precedence") powers := by
  -- Only constructs with the field of a precedence have powers.
  have hname : "precedence" ∈ c.kind.fieldNames := by
    cases c with
    | connective label form => exact (by decide : "precedence" ∈ Kind.connective.fieldNames)
    | function label form => exact (by decide : "precedence" ∈ Kind.function.fieldNames)
    | quantifier label => cases hpowers
    | predicate label form => cases hpowers
  rw [← ((readFrom_ofEntries entries).of_eq_ok h).shownValue_eq hname]
  exact powersFrom_shownValue c hpowers

end Construct

end LatexLogic
