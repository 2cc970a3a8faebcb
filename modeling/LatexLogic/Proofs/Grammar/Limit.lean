import LatexLogic.Proofs.Grammar.Depth

/-!
# Reading with a limit of depth

A limit of depth changes nothing but that reading is given up. With any number of levels a reader
either refuses its tokens as too deeply nested or answers as it does without a limit
(`Level.givesUpOr_ofDepth`), and the same holds of parsing (`Formula.parseWithin_eq_or_tooDeep`).

This is not obvious at a parenthesis, where a failure of the formula makes room for a term: giving up
is a failure that does not.
-/

set_option autoImplicit false

namespace LatexLogic

namespace Reader

variable {α β : Type}

/-- The first reader gives up because of the depth, or answers as the second one does. -/
def GivesUpOr (x y : Reader α) : Prop :=
  ∀ ts, (∃ rest, x ts = .error .tooDeep rest) ∨ x ts = y ts

section Combinators

variable {x y : Reader α}

theorem GivesUpOr.refl (x : Reader α) : x.GivesUpOr x := fun _ => Or.inr rfl

theorem GivesUpOr.bind {f g : α → Reader β} (h : x.GivesUpOr y) (hfg : ∀ a, (f a).GivesUpOr (g a)) :
    (x >>= f).GivesUpOr (y >>= g) := by
  intro ts
  -- Where the first part does not give up, both sides go on from the same result.
  rcases h ts with ⟨rest, hx⟩ | hxy
  · exact Or.inl ⟨rest, bind_of_eq_error hx⟩
  · cases hx : x ts with
    | error failure mid =>
      exact Or.inr ((bind_of_eq_error hx).trans (bind_of_eq_error (hxy ▸ hx)).symm)
    | ok a mid =>
      rw [bind_of_eq_ok hx, bind_of_eq_ok (hxy ▸ hx : y ts = .ok a mid)]
      exact hfg a mid

theorem GivesUpOr.after {z : Reader β} {f g : β → Reader α} (hfg : ∀ b, (f b).GivesUpOr (g b)) :
    (z >>= f).GivesUpOr (z >>= g) :=
  (GivesUpOr.refl z).bind hfg

theorem GivesUpOr.parenthesised (h : x.GivesUpOr y) :
    (parenthesised x).GivesUpOr (parenthesised y) := by
  refine .after fun o => ?_
  cases o with
  | none => exact .refl _
  | some t =>
    dsimp only
    split
    · exact .after fun _ => h.bind fun _ => .refl _
    · split
      · exact h.bind fun _ => .refl _
      · exact .refl _

theorem GivesUpOr.moreItems (h : x.GivesUpOr y) :
    ∀ limit, (moreItems x limit).GivesUpOr (moreItems y limit)
  | 0 => .refl _
  | limit + 1 => by
    refine .after fun ts => ?_
    split
    · exact .after fun _ => h.bind fun _ => (h.moreItems limit).bind fun _ => .refl _
    · exact .refl _

theorem GivesUpOr.list (h : x.GivesUpOr y) : (list x).GivesUpOr (list y) :=
  h.bind fun _ => .after fun ts => (h.moreItems ts.length).bind fun _ => .refl _

theorem givesUpOr_infixRun {operator? : Token → Option InfixOperator}
    {operand operand' : Threshold → Reader Tree} (h : ∀ m, (operand m).GivesUpOr (operand' m))
    (m : Threshold) : ∀ limit tree, (infixRun operator? operand m limit tree).GivesUpOr
      (infixRun operator? operand' m limit tree)
  | 0, _ => .refl _
  | limit + 1, tree => by
    refine .after fun ts => ?_
    split
    · exact .refl _
    · exact .after fun _ => (h _).bind fun _ => givesUpOr_infixRun h m limit _

theorem givesUpOr_infixRest {operator? : Token → Option InfixOperator}
    {operand operand' : Threshold → Reader Tree} (h : ∀ m, (operand m).GivesUpOr (operand' m))
    (m : Threshold) (tree : Tree) :
    (infixRest operator? operand m tree).GivesUpOr (infixRest operator? operand' m tree) :=
  .after fun ts => givesUpOr_infixRun h m ts.length tree

end Combinators

end Reader

namespace Level

open Reader

/-- Each reader of the first level gives up or answers as that of the second one does. -/
structure GivesUpOr (a b : Level) : Prop where
  formula : ∀ m, (a.formula m).GivesUpOr (b.formula m)
  term : ∀ m, (a.term m).GivesUpOr (b.term m)
  basicTerm : a.basicTerm.GivesUpOr b.basicTerm

section Above

variable {a b : Level}

theorem givesUpOr_application (symbol label : String) (arity : Nat) {x y : Reader Tree}
    (h : x.GivesUpOr y) :
    (application symbol label arity x).GivesUpOr (application symbol label arity y) :=
  h.list.parenthesised.bind fun _ => .refl _

theorem GivesUpOr.basicTermAbove (h : a.GivesUpOr b) :
    (basicTermAbove a).GivesUpOr (basicTermAbove b) := by
  refine .after fun o => ?_
  cases o with
  | none => exact .refl _
  | some t =>
    dsimp only
    split
    · exact .after fun _ => givesUpOr_application _ _ _ h.basicTerm
    · refine .after fun ts => ?_
      split
      · exact (h.term _).parenthesised
      · exact .refl _

theorem GivesUpOr.termAbove (h : a.GivesUpOr b) (m : Threshold) :
    (termAbove a m).GivesUpOr (termAbove b m) :=
  h.basicTermAbove.bind fun first => givesUpOr_infixRest h.term m first

theorem GivesUpOr.infixPredicateAbove (h : a.GivesUpOr b) :
    (infixPredicateAbove a).GivesUpOr (infixPredicateAbove b) := by
  refine (h.termAbove _).bind fun left => .after fun t => ?_
  split
  · exact (h.termAbove _).bind fun _ => .refl _
  · exact .refl _

/-- Giving up leaves no room for a term, and any other failure is the same without a limit. -/
theorem givesUpOr_formulaElseTerm {formula formula' term term' : Reader Tree}
    (hformula : formula.GivesUpOr formula') (hterm : term.GivesUpOr term') :
    (formulaElseTerm formula term).GivesUpOr (formulaElseTerm formula' term') := by
  intro ts
  unfold formulaElseTerm
  rcases hformula ts with ⟨rest, hgives⟩ | hsame
  · rw [hgives]
    exact Or.inl ⟨rest, rfl⟩
  · rw [← hsame]
    cases formula ts with
    | ok tree rest => exact Or.inr rfl
    | error failure rest =>
      cases hleaves : leavesTerm failure with
      | true => simpa only [hleaves, if_true] using hterm ts
      | false => exact Or.inr (by simp only [hleaves, Bool.false_eq_true, if_false])

theorem GivesUpOr.basicFormulaAbove (h : a.GivesUpOr b) :
    (basicFormulaAbove a).GivesUpOr (basicFormulaAbove b) := by
  refine .after fun o => ?_
  cases o with
  | none => exact .refl _
  | some t =>
    dsimp only
    split
    · exact .refl _
    · exact .refl _
    · exact .after fun _ => givesUpOr_application _ _ _ (h.term _)
    · refine .after fun ts => ?_
      split
      · exact givesUpOr_formulaElseTerm (h.formula _).parenthesised h.infixPredicateAbove
      · exact h.infixPredicateAbove

theorem GivesUpOr.quantified (h : a.GivesUpOr b) (label : String) :
    (quantified a label).GivesUpOr (quantified b label) := by
  refine .after fun bound => ?_
  split
  · exact .refl _
  · exact (h.formula _).bind fun _ => .refl _

theorem GivesUpOr.operandAbove (h : a.GivesUpOr b) :
    (operandAbove a).GivesUpOr (operandAbove b) := by
  refine .after fun o => ?_
  cases o with
  | none => exact .refl _
  | some t =>
    dsimp only
    split
    · exact .after fun _ => (h.formula _).bind fun _ => .refl _
    · exact .after fun _ => h.quantified _
    · exact h.basicFormulaAbove

theorem GivesUpOr.formulaAbove (h : a.GivesUpOr b) (m : Threshold) :
    (formulaAbove a m).GivesUpOr (formulaAbove b m) :=
  h.operandAbove.bind fun first => givesUpOr_infixRest h.formula m first

/-- The relation of two levels holds of the levels above them. -/
theorem GivesUpOr.above (h : a.GivesUpOr b) : (above a).GivesUpOr (above b) where
  formula := h.formulaAbove
  term := h.termAbove
  basicTerm := h.basicTermAbove

end Above

/-- With any depth the readers give up or answer as without a limit. -/
theorem givesUpOr_ofDepth : ∀ depth, (ofDepth depth).GivesUpOr unlimited
  | 0 => ⟨fun _ ts => Or.inl ⟨ts, rfl⟩, fun _ ts => Or.inl ⟨ts, rfl⟩, fun ts => Or.inl ⟨ts, rfl⟩⟩
  | depth + 1 => by
    have h := (givesUpOr_ofDepth depth).above
    rwa [above_unlimited] at h

end Level

namespace Formula

/-- With any depth the tokens are refused as too deep, or answered as with a sufficient one. -/
theorem treeOfTokens_eq_or_tooDeep (depth : Nat) {n : Nat} {ts : List Token} (h : ts.length < n) :
    treeOfTokens depth ts = .error .tooDeep ∨ treeOfTokens depth ts = treeOfTokens n ts := by
  unfold treeOfTokens
  rw [Level.ofDepth_eq_unlimited h]
  rcases (Level.givesUpOr_ofDepth depth).formula Level.whole ts with ⟨rest, hgives⟩ | hsame
  · rw [hgives]
    exact Or.inl rfl
  · rw [hsame]
    exact Or.inr rfl

/-- With any depth a text is refused as too deep, or answered as without a limit. -/
theorem parseWithin_eq_or_tooDeep (depth : Nat) (table : Table) (text : String) :
    parseWithin depth table text = .error .tooDeep ∨
      parseWithin depth table text = parse table text := by
  have hlength := Nat.lt_succ_of_le (length_tokenize_le table text)
  rw [parse]
  cases hblank : text.toList.all Text.isBlank with
  | true => exact Or.inr (by simp only [parseWithin, hblank, if_true])
  | false =>
    simp only [parseWithin, hblank, Bool.false_eq_true, if_false]
    rcases treeOfTokens_eq_or_tooDeep depth hlength with htree | htree
    · rw [htree]
      exact Or.inl rfl
    · rw [htree]
      cases hraw : treeOfTokens (text.length + 1) (tokenize table text) with
      | error failure => exact Or.inr rfl
      | ok raw =>
        -- A tree is at most one level deeper than its text is long, which is what `parse` allows.
        have hdepth := depth_le_of_formula ((treeOfTokens_eq_ok_iff hlength).1 hraw)
        dsimp only
        rw [if_neg (by omega : ¬ text.length + 1 < raw.depth)]
        split
        · exact Or.inl rfl
        · exact Or.inr rfl

end Formula

end LatexLogic
