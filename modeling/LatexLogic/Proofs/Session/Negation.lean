import LatexLogic.Proofs.Binding.Verdict
import LatexLogic.Proofs.Token.Layout

/-!
# Formulas of every depth

With a negation in front of another any number of times there is an accepted formula of every depth,
and within a limit of nesting there is one of almost every depth below it
(`exists_parseWithin_negatedText`). So the trees of accepted formulas are not kept from being as deep
as the limit for reading lets them be.
-/

set_option autoImplicit false

namespace LatexLogic

open Reader

/-- The metavariable `\phi` with a number of negations in front. -/
def negatedText : Nat → String
  | 0 => "\\phi"
  | n + 1 => "\\neg" ++ negatedText n

/-- The tree that such a text is read as. -/
def negated : Nat → Tree
  | 0 => .metavar "phi" []
  | n + 1 => .node "not" [negated n]

/-- The negation of the standard table. -/
def negation : Token :=
  .known (.control "neg") (.connective "not" (.prefixOp 4 .null))

/-! ## Reading -/

/-- A negated text begins with a backslash. -/
theorem letterNext_negatedText (n : Nat) : letterNext (negatedText n).toList = false := by
  cases n with
  | zero => rfl
  | succ n => rw [negatedText, String.toList_append]; rfl

theorem tokenize_negatedText (n : Nat) :
    tokenize Table.standard (negatedText n) =
      List.replicate n negation ++ [.metavariable .phi] := by
  have hscan : Lexeme.scan (negatedText n).toList =
      List.replicate n (.control "neg") ++ [.control "phi"] := by
    induction n with
    | zero => rfl
    | succ n ih =>
      -- The backslash of what follows ends the word.
      have hletters : ['n', 'e', 'g'].all isControlLetter = true := by decide
      have hword := Lexeme.scan_word (List.cons_ne_nil _ _) (List.all_eq_true.1 hletters)
        (letterNext_negatedText n)
      rw [negatedText, String.toList_append, List.replicate_succ, List.cons_append, ← ih]
      exact hword
  rw [tokenize, hscan, List.map_append, List.map_replicate]
  rfl

/-- The threshold does not matter, since no connective stands between two formulas. -/
theorem formula_negated (n : Nat) (m : Threshold) :
    formula m (List.replicate n negation ++ [.metavariable .phi]) = .ok (negated n) [] := by
  induction n generalizing m with
  | zero => rfl
  | succ n ih =>
    have hoperand : operand (negation :: (List.replicate n negation ++ [.metavariable .phi])) =
        .ok (negated (n + 1)) [] := operand_before_of_eq_ok (ih _)
    rw [List.replicate_succ, List.cons_append, formula_eq, bind_of_eq_ok hoperand]
    -- Nothing is left with which the formula could go on.
    rfl

/-- A negated text is read as the negated tree. -/
theorem formula_negatedText (n : Nat) :
    formula Level.whole (tokenize Table.standard (negatedText n)) = .ok (negated n) [] := by
  rw [tokenize_negatedText]
  exact formula_negated n Level.whole

/-! ## Checks -/

theorem depth_negated (n : Nat) : (negated n).depth = n := by
  induction n with
  | zero => rfl
  | succ n ih => simp only [negated, Tree.depth, Tree.depthList, ih, Nat.max_zero]

theorem depth_erased_negated (n : Nat) : (negated n).erased.depth = n := by
  induction n with
  | zero => rfl
  | succ n ih =>
    simp only [negated, Tree.erased, Tree.erasedList, Tree.depth, Tree.depthList, ih, Nat.max_zero]

/-- The parts of a negated tree are negated trees. -/
theorem exists_eq_negated {n : Nat} {p : List Nat} {s : Tree} (h : (negated n).at? p = some s) :
    ∃ k, s = negated k := by
  induction p generalizing n with
  | nil => exact ⟨n, (Option.some.inj h).symm⟩
  | cons i p ih =>
    -- A path goes on only into the argument of a negation.
    obtain ⟨arg, harg, hat⟩ := Tree.at?_cons_eq_some_iff.1 h
    cases n with
    | zero => cases harg
    | succ n =>
      obtain rfl := List.mem_singleton.1 (List.mem_of_getElem? harg)
      exact ih hat

/-- The only metavariable of a negated tree declares no variable. -/
theorem eq_of_metavar_negated {n : Nat} {p : List Nat} {name : String} {declared : List String}
    (h : (negated n).at? p = some (.metavar name declared)) : name = "phi" ∧ declared = [] := by
  obtain ⟨k, hk⟩ := exists_eq_negated h
  cases k with
  | zero => exact Tree.metavar.inj hk
  | succ k => cases hk

/-- It has no atoms. -/
theorem not_atom_negated {n : Nat} {p : List Nat} {label : String} :
    (negated n).at? p ≠ some (.atom label) := by
  intro h
  obtain ⟨k, hk⟩ := exists_eq_negated h
  cases k <;> cases hk

/-- A negated tree passes all checks. -/
theorem ofTree_negated (n : Nat) :
    ∃ f, Formula.ofTree Table.standard.isQuantifierLabel (negated n) = .ok f ∧
      f.tree = (negated n).erased := by
  have hnames := namesBinders_of_read Table.standard_wellFormed 0 (formula_negatedText n)
  have hclosed : (negated n).Closed Table.standard.isQuantifierLabel := by
    rintro v - ⟨p, ⟨hat, -⟩ | ⟨m, declared, hat, hv⟩, -⟩
    · exact not_atom_negated hat
    · rw [(eq_of_metavar_negated hat).2] at hv
      exact absurd hv List.not_mem_nil
  have halike : (negated n).DeclaresAlike := by
    rintro m ⟨p, p', declared, declared', hat, hat', hapart⟩
    rw [(eq_of_metavar_negated hat).2, (eq_of_metavar_negated hat').2] at hapart
    exact hapart fun _ => Iff.rfl
  have honce : (negated n).BindsOnce Table.standard.isQuantifierLabel := by
    rintro v q q' ⟨label, scope, hat, -⟩
    -- A negation has one argument, a quantifier node has two.
    obtain ⟨k, hk⟩ := exists_eq_negated hat
    cases k with
    | zero => cases hk
    | succ k => exact absurd (Tree.node.inj hk).2 (by simp)
  have heigen : (negated n).DeclaresNoEigenvariable := by
    intro p m declared hat v hv
    rw [(eq_of_metavar_negated hat).2] at hv
    exact absurd hv List.not_mem_nil
  obtain ⟨f, hf, htree, -⟩ :=
    Formula.ofTree_of_declaresNoEigenvariable hnames hclosed halike honce heigen
  exact ⟨f, hf, htree⟩

/-! ## Formulas -/

/-- A negated text is accepted within any limit that exceeds the number of its tokens. -/
theorem exists_parseWithin_negatedText {n depth : Nat} (h : n + 1 < depth) :
    ∃ f, Formula.parseWithin depth Table.standard (negatedText n) = .ok f ∧ f.tree.depth = n := by
  have hlength : (tokenize Table.standard (negatedText n)).length < depth := by
    rw [tokenize_negatedText, List.length_append, List.length_replicate]
    exact h
  have hdepth : (negated n).depth ≤ depth := by
    rw [depth_negated]
    omega
  obtain ⟨f, hf, htree⟩ := ofTree_negated n
  refine ⟨f, ?_, by rw [htree, depth_erased_negated]⟩
  rw [Formula.parseWithin_of_formula hlength hdepth (formula_negatedText n), hf]
  rfl

end LatexLogic
