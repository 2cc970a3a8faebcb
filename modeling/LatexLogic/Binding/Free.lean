import LatexLogic.Formula.Tree
import LatexLogic.Formula.Variable

/-!
# Free variables

The ordinary variables that occur free in a tree, each once, in the order of their first free
occurrences. The variables declared for a metavariable count as occurrences.

Which labels belong to quantifiers is a parameter of this and the other checks. A node with such a
label and two arguments binds the first in the second; the first itself is no occurrence.
-/

set_option autoImplicit false

namespace LatexLogic

/-- The first list, followed by the items of the second that are new, each once. -/
def appendNew {α : Type} [DecidableEq α] (xs : List α) : List α → List α
  | [] => xs
  | y :: ys => appendNew (if y ∈ xs then xs else xs ++ [y]) ys

/-- Every item of either list is in the result, and no other. -/
@[simp] theorem mem_appendNew {α : Type} [DecidableEq α] {x : α} (ys : List α) :
    ∀ xs : List α, x ∈ appendNew xs ys ↔ x ∈ xs ∨ x ∈ ys := by
  induction ys with
  | nil => intro xs; simp [appendNew]
  | cons y ys ih =>
    intro xs
    rw [appendNew, ih]
    by_cases h : y ∈ xs
    · rw [if_pos h, List.mem_cons]
      constructor
      · rintro (hx | hx)
        · exact Or.inl hx
        · exact Or.inr (Or.inr hx)
      · rintro (hx | rfl | hx)
        · exact Or.inl hx
        · exact Or.inl h
        · exact Or.inr hx
    · rw [if_neg h, List.mem_append, List.mem_singleton, List.mem_cons, or_assoc]

/-- No item occurs twice in the result unless it did so in the first list. -/
theorem nodup_appendNew {α : Type} [DecidableEq α] (ys : List α) :
    ∀ xs : List α, xs.Nodup → (appendNew xs ys).Nodup := by
  induction ys with
  | nil => intro xs h; exact h
  | cons y ys ih =>
    intro xs h
    rw [appendNew]
    apply ih
    by_cases hy : y ∈ xs
    · rw [if_pos hy]; exact h
    · rw [if_neg hy]
      refine List.nodup_append.2 ⟨h, List.nodup_cons.2 ⟨List.not_mem_nil, List.nodup_nil⟩, ?_⟩
      intro a ha b hb
      rw [List.mem_singleton] at hb
      subst hb
      rintro rfl
      exact hy ha

namespace Tree

mutual

/-- The free ordinary variables of a tree. -/
def freeVariables (isQuantifier : String → Bool) : Tree → List String
  | .atom label => if isOrdinaryVariable label then [label] else []
  | .metavar _ declared => appendNew [] (declared.filter isOrdinaryVariable)
  | .node label [binder, scope] =>
    if isQuantifier label then
      (freeVariables isQuantifier scope).filter fun name => binder ≠ .atom name
    else freeVariablesFrom isQuantifier [] [binder, scope]
  | .node _ args => freeVariablesFrom isQuantifier [] args

/-- The free ordinary variables of a list of trees, after those already found. -/
def freeVariablesFrom (isQuantifier : String → Bool) (found : List String) :
    List Tree → List String
  | [] => found
  | t :: ts =>
    freeVariablesFrom isQuantifier (appendNew found (freeVariables isQuantifier t)) ts

end

end Tree

end LatexLogic
