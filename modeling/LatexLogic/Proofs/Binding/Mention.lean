import LatexLogic.Proofs.Binding.Scope

/-!
# The order of free variables

The check for free variables collects each variable once. Before anything is collected there are the
mentions: the free occurrences of ordinary variables from left to right, as often as they occur
(`Tree.freeMentions`). The check finds the mentions, each at its first place
(`Tree.freeVariables_eq`). So the variable that it reports is the one that is mentioned first
(`Tree.head?_freeVariables`).
-/

set_option autoImplicit false

namespace LatexLogic

/-! ## Each item once -/

section AppendNew

variable {α : Type} [DecidableEq α]

theorem appendNew_append (ys zs : List α) :
    ∀ xs : List α, appendNew xs (ys ++ zs) = appendNew (appendNew xs ys) zs := by
  induction ys with
  | nil =>
    intro xs
    rfl
  | cons y ys ih =>
    intro xs
    rw [List.cons_append, appendNew, ih, appendNew]

/-- Items that were collected apart are collected in the same way as at once. -/
theorem appendNew_appendNew (xs ys : List α) :
    ∀ zs : List α, appendNew xs (appendNew zs ys) = appendNew (appendNew xs zs) ys := by
  induction ys with
  | nil =>
    intro zs
    rfl
  | cons y ys ih =>
    intro zs
    rw [appendNew, ih, appendNew]
    by_cases hy : y ∈ zs
    · rw [if_pos hy, if_pos ((mem_appendNew zs xs).2 (Or.inr hy))]
    · rw [if_neg hy, appendNew_append]
      rfl

/-- It makes no difference whether items are left out before or after. -/
theorem filter_appendNew (p : α → Bool) (ys : List α) :
    ∀ xs : List α, (appendNew xs ys).filter p = appendNew (xs.filter p) (ys.filter p) := by
  induction ys with
  | nil =>
    intro xs
    rfl
  | cons y ys ih =>
    intro xs
    rw [appendNew, ih]
    cases hp : p y with
    | false =>
      rw [List.filter_cons_of_neg (by simp [hp])]
      by_cases hy : y ∈ xs
      · rw [if_pos hy]
      · rw [if_neg hy, List.filter_append, List.filter_cons_of_neg (by simp [hp]), List.filter_nil,
          List.append_nil]
    | true =>
      rw [List.filter_cons_of_pos hp, appendNew]
      by_cases hy : y ∈ xs
      · rw [if_pos hy, if_pos (List.mem_filter.2 ⟨hy, hp⟩)]
      · rw [if_neg hy, if_neg fun hmem => hy (List.mem_filter.1 hmem).1, List.filter_append,
          List.filter_cons_of_pos hp, List.filter_nil]

/-- The first item stays the first. -/
theorem head?_appendNew (ys : List α) :
    ∀ xs : List α, (appendNew xs ys).head? = (xs ++ ys).head? := by
  induction ys with
  | nil =>
    intro xs
    rw [List.append_nil]
    rfl
  | cons y ys ih =>
    intro xs
    rw [appendNew, ih]
    by_cases hy : y ∈ xs
    · rw [if_pos hy]
      cases xs with
      | nil => cases hy
      | cons x xs => rfl
    · rw [if_neg hy, List.append_assoc, List.singleton_append]

end AppendNew

namespace Tree

/-! ## Mentions -/

mutual

/-- The free occurrences of ordinary variables in a tree, from left to right. -/
def freeMentions (isQuantifier : String → Bool) : Tree → List String
  | .atom label => if isOrdinaryVariable label then [label] else []
  | .metavar _ declared => declared.filter isOrdinaryVariable
  | .node label [binder, scope] =>
    if isQuantifier label then
      (freeMentions isQuantifier scope).filter fun name => binder ≠ .atom name
    else freeMentionsList isQuantifier [binder, scope]
  | .node _ args => freeMentionsList isQuantifier args

/-- The free occurrences in the trees of a list. -/
def freeMentionsList (isQuantifier : String → Bool) : List Tree → List String
  | [] => []
  | t :: ts => freeMentions isQuantifier t ++ freeMentionsList isQuantifier ts

end

section Mentions

variable {isQuantifier : String → Bool}

theorem freeMentionsList_eq_flatMap (ts : List Tree) :
    freeMentionsList isQuantifier ts = ts.flatMap (freeMentions isQuantifier) := by
  induction ts with
  | nil => rfl
  | cons t ts ih => rw [freeMentionsList, ih, List.flatMap_cons]

/-- The mentions in the node of a quantifier are those in its scope of other variables. -/
theorem freeMentions_quantifier {label : String} {binder scope : Tree}
    (hlabel : isQuantifier label = true) :
    (node label [binder, scope]).freeMentions isQuantifier =
      (scope.freeMentions isQuantifier).filter fun name => binder ≠ .atom name := by
  rw [freeMentions, if_pos hlabel]

/-- The mentions in any other node are those in its arguments. -/
theorem freeMentions_node {label : String} {args : List Tree}
    (h : ¬ ∃ binder scope, args = [binder, scope] ∧ isQuantifier label = true) :
    (node label args).freeMentions isQuantifier = args.flatMap (freeMentions isQuantifier) := by
  rw [← freeMentionsList_eq_flatMap]
  cases args, h using other_args_cases with
  | pair binder scope _ hlabel => simp [freeMentions, hlabel]
  | nil => rfl
  | single => rfl
  | more => rfl

theorem freeMentions_of_not_quantifier {label : String} {args : List Tree}
    (hlabel : isQuantifier label = false) :
    (node label args).freeMentions isQuantifier = args.flatMap (freeMentions isQuantifier) := by
  refine freeMentions_node ?_
  rintro ⟨binder, scope, -, htrue⟩
  rw [hlabel] at htrue
  cases htrue

theorem freeVariablesFrom_eq {ts : List Tree}
    (h : ∀ t ∈ ts, t.freeVariables isQuantifier = appendNew [] (t.freeMentions isQuantifier)) :
    ∀ found : List String, freeVariablesFrom isQuantifier found ts =
      appendNew found (ts.flatMap (freeMentions isQuantifier)) := by
  induction ts with
  | nil =>
    intro found
    rfl
  | cons t ts ih =>
    intro found
    rw [List.forall_mem_cons] at h
    rw [freeVariablesFrom, h.1, ih h.2, appendNew_appendNew, List.flatMap_cons, appendNew_append]
    rfl

/-- The free variables of a tree are its mentions, each once and in the order of their first
places. -/
theorem freeVariables_eq (t : Tree) :
    t.freeVariables isQuantifier = appendNew [] (t.freeMentions isQuantifier) := by
  induction t using induction with
  | atom label =>
    rw [freeVariables, freeMentions]
    by_cases hlabel : isOrdinaryVariable label = true
    · rw [if_pos hlabel]
      rfl
    · rw [if_neg hlabel]
      rfl
  | metavar name declared => rw [freeVariables, freeMentions]
  | node label args ih =>
    by_cases hshape : ∃ binder scope, args = [binder, scope] ∧ isQuantifier label = true
    · obtain ⟨binder, scope, rfl, hlabel⟩ := hshape
      rw [freeVariables, if_pos hlabel, ih scope (by simp), freeMentions_quantifier hlabel,
        filter_appendNew]
      rfl
    · rw [freeVariables_node hshape, freeVariablesFrom_eq ih, freeMentions_node hshape]

/-- The variable that is found first is the one that is mentioned first. -/
theorem head?_freeVariables (t : Tree) :
    (t.freeVariables isQuantifier).head? = (t.freeMentions isQuantifier).head? := by
  rw [freeVariables_eq, head?_appendNew, List.nil_append]

end Mentions

end Tree

end LatexLogic
