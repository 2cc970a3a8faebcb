import LatexLogic.Proofs.Cursor.Tracking

/-!
# Parsers that call each other

Every parser tracks its reader, given that the parsers which it calls track theirs (`Carries`), and
takes at least one token. So this holds of every run with fuel enough (`Parser.carries_run`): a parser
calls another one at a later cursor, or one of smaller allowance at the same cursor.

The parsers at a parenthesis are no exception. The second attempt starts where the first one did, but
it is one at an infix predicate, which does not come back to formulas before it has taken the
parenthesis.
-/

set_option autoImplicit false

namespace LatexLogic

open Reader (digitOf? variableLetter?)

/-- The reader of what a parser reads. -/
def Parser.reader : ⦃α : Type⦄ → Parser α → Reader α
  | _, .formula m => Reader.formula m
  | _, .basicFormula => Reader.basicFormula
  | _, .infixPredicate => Reader.infixPredicate
  | _, .term m => Reader.term m
  | _, .basicTerm => Reader.basicTerm
  | _, .name => Reader.variableName
  | _, .subscript => Reader.subscript
  | _, .integer => Reader.integer
  | _, .list item => Reader.list item.reader
  | _, .parens inner => Reader.parenthesised inner.reader
  | _, .group inner => Reader.braced inner.reader
  | _, .delimited opening closing inner => Reader.delimited opening closing inner.reader

/-- Every parser that is called with fuel enough tracks its reader and takes at least one token. -/
def Carries (call : Caller) (fuel : Nat) : Prop :=
  ∀ ⦃α : Type⦄ (p : Parser α) (c : Cursor), 4 * c.remaining + p.allowance ≤ fuel →
    Tracks c c.remaining (call p c) (p.reader c.ahead)

namespace Parser

section Parenthesis

variable {call : Caller} {c c' : Cursor}

theorem parenthesisBody_of_eq_ok {tree : Tree}
    (h : call (.parens (.formula Level.whole)) c = .ok tree c') :
    parenthesisBody call c = .ok tree c' := by
  show EStateM.tryCatch (call _) _ c = _
  simp only [EStateM.tryCatch, h]

theorem parenthesisBody_of_eq_error {failure : Failure}
    (h : call (.parens (.formula Level.whole)) c = .error failure c') :
    parenthesisBody call c =
      if Level.leavesTerm failure then call .infixPredicate { c' with position := c.position }
      else .error failure c' := by
  show EStateM.tryCatch (call _) _ c = _
  simp only [EStateM.tryCatch, h]
  split
  · rfl
  · rfl

end Parenthesis

section Bodies

variable {call : Caller} {fuel n : Nat} {c : Cursor} (hcall : Carries call fuel)

include hcall

theorem tracks_withSubscript (name : String) (h : 4 * c.remaining + 1 ≤ fuel) :
    Tracks c (c.remaining + 1) (withSubscript call name c) (Reader.withSubscript name c.ahead) := by
  simp only [withSubscript, Reader.withSubscript, Cursor.get_bind, Reader.get_bind,
    Cursor.isAt_zero]
  split
  · exact (hcall .subscript c h).bind fun s c₁ _ hlt₁ => tracks_pure (by omega)
  · exact tracks_pure (Nat.lt_succ_self _)

theorem tracks_name (h : 4 * c.remaining ≤ fuel) :
    Tracks c c.remaining (nameBody call c) (Reader.variableName c.ahead) := by
  refine .next fun t c₁ h₁ hlt₁ hpassed => ?_
  cases variableLetter? t with
  | some letter => exact (tracks_withSubscript hcall _ (by omega)).mono (by omega)
  | none => exact tracks_fail (Cursor.pointsAt_passed hpassed _)

theorem tracks_subscript (h : 4 * c.remaining ≤ fuel) :
    Tracks c c.remaining (subscriptBody call c) (Reader.subscript c.ahead) := by
  refine (tracks_expect _).bind fun _ c₁ h₁ hlt₁ => ?_
  simp only [Cursor.get_bind, Reader.peek?_bind, Cursor.head?_ahead]
  cases hpeek : c₁.peek? 0 with
  | none => exact tracks_fail_end hpeek
  | some t =>
    dsimp only
    cases digitOf? t with
    | some digit => exact .take hpeek fun c₂ _ hlt₂ _ => tracks_pure (by omega)
    | none =>
      have hfuel : 4 * c₁.remaining + (Parser.group .integer).allowance ≤ fuel := by
        rw [allowance_group, allowance_integer]
        omega
      exact (hcall (.group .integer) c₁ hfuel).mono (by omega)

theorem tracks_declaration (h : 4 * c.remaining + 2 ≤ fuel) :
    Tracks c (c.remaining + 1) (declaration call c) (Reader.declaration c.ahead) := by
  simp only [declaration, Reader.declaration, Cursor.get_bind, Reader.get_bind,
    Cursor.opensWith_eq]
  split
  · have hfuel : 4 * c.remaining + (Parser.parens (.list .name)).allowance ≤ fuel := by
      rw [allowance_parens, allowance_list, allowance_name]
      omega
    exact (hcall (.parens (.list .name)) c hfuel).mono (by omega)
  · exact tracks_pure (Nat.lt_succ_self _)

theorem tracks_application (symbol label : String) (arity : Nat) (argument : Parser Tree)
    (h : 4 * c.remaining + (Parser.parens (.list argument)).allowance ≤ fuel) :
    Tracks c c.remaining (application call symbol label arity argument c)
      (Level.application symbol label arity argument.reader c.ahead) := by
  refine (hcall (.parens (.list argument)) c h).bind fun args c₁ _ hlt₁ => ?_
  cases happly : Tree.applied symbol label arity args with
  | ok tree => exact tracks_pure hlt₁
  | error e => exact tracks_fail (Cursor.pointsAt_of_applied happly)

theorem tracks_basicTerm (h : 4 * c.remaining + 2 ≤ fuel) :
    Tracks c c.remaining (basicTermBody call c) (Reader.basicTerm c.ahead) := by
  rw [Reader.basicTerm_eq]
  simp only [basicTermBody, Level.basicTermAbove, Cursor.get_bind, Reader.peek?_bind,
    Cursor.head?_ahead, Cursor.opensWith_eq]
  cases hpeek : c.peek? 0 with
  | none => exact tracks_fail_end hpeek
  | some t =>
    have hother : Tracks c c.remaining
        ((if Reader.opensWith "(" c.ahead then call (.parens (.term Level.whole))
          else call .name >>= fun name => pure (.atom name)) c)
        ((if Reader.opensWith "(" c.ahead then Reader.parenthesised (Reader.term Level.whole)
          else Reader.variableName >>= fun name => pure (.atom name)) c.ahead) := by
      split
      · exact hcall (.parens (.term Level.whole)) c (by rw [allowance_parens, allowance_term]; omega)
      · exact (hcall .name c (by rw [allowance_name]; omega)).bind fun name c₁ _ hlt₁ =>
          tracks_pure hlt₁
    rcases t with ⟨lexeme, _ | _ | _ | ⟨label, ⟨arity, positive, note⟩ | _⟩⟩ | _ | _ | _
    case known.function.prefixOp =>
      refine .take hpeek fun c₁ _ hlt₁ _ => ?_
      exact (tracks_application hcall _ _ _ .basicTerm
        (by rw [allowance_parens, allowance_list, allowance_basicTerm]; omega)).mono hlt₁.le
    all_goals exact hother

theorem tracks_term (m : Threshold) (h : 4 * c.remaining + 3 ≤ fuel) :
    Tracks c c.remaining (termBody call fuel m c) (Reader.term m c.ahead) := by
  simp only [termBody, Cursor.get_bind]
  cases hpeek : c.peek? 0 with
  | none =>
    have hterm : Reader.term m c.ahead = .error (.fault (.unexpectedEnd none)) c.ahead := by
      rw [Cursor.ahead_of_peek?_none hpeek]
      rfl
    rw [hterm]
    exact .fault (.refl c) (Cursor.remaining_of_peek?_none hpeek)
  | some t =>
    rw [Reader.term_eq]
    exact tracks_infixRest (by omega) (hcall .basicTerm c h) fun m c₁ _ hlt₁ =>
      hcall (.term m) c₁ (by rw [allowance_term]; omega)

theorem tracks_infixPredicate (h : 4 * c.remaining + 4 ≤ fuel) :
    Tracks c c.remaining (infixPredicateBody call c) (Reader.infixPredicate c.ahead) := by
  rw [Reader.infixPredicate_eq]
  refine (hcall (.term Level.whole) c h).bind fun left c₁ _ hlt₁ => ?_
  refine .next fun t c₂ _ hlt₂ hpassed => ?_
  rcases t with ⟨lexeme, _ | _ | ⟨label, _ | _⟩ | _⟩ | _ | _ | _
  case known.predicate.infixOp =>
    exact (hcall (.term Level.whole) c₂ (by rw [allowance_term]; omega)).bind
      fun right c₃ _ hlt₃ => tracks_pure (by omega)
  all_goals exact tracks_fail (Cursor.pointsAt_passed hpassed _)

/-- A parenthesis is read twice if it has to be, from the same place. -/
theorem tracks_parenthesis (h : 4 * c.remaining + 5 ≤ fuel) :
    Tracks c c.remaining (parenthesisBody call c)
      (Level.formulaElseTerm (Reader.parenthesised (Reader.formula Level.whole))
        Reader.infixPredicate c.ahead) := by
  have hpredicate := hcall .infixPredicate c h
  have hformula : Tracks c c.remaining (call (.parens (.formula Level.whole)) c)
      (Reader.parenthesised (Reader.formula Level.whole) c.ahead) := hcall _ c h
  generalize hx : call (.parens (.formula Level.whole)) c = x,
    hy : Reader.parenthesised (Reader.formula Level.whole) c.ahead = y at hformula
  rw [Level.formulaElseTerm, hy]
  cases hformula with
  | ok hreach hlt =>
    rw [parenthesisBody_of_eq_ok hx]
    exact .ok hreach hlt
  | @fault e c' hreach hpoints =>
    -- Back at the parenthesis the second attempt has as many tokens ahead as the first one. It is
    -- carried out because its allowance is smaller than that of the formula around both.
    rw [parenthesisBody_of_eq_error hx, hreach.reset_eq]
    dsimp only
    split
    · exact hpredicate
    · exact .fault hreach hpoints

theorem tracks_basicFormula (h : 4 * c.remaining + 5 ≤ fuel) :
    Tracks c c.remaining (basicFormulaBody call c) (Reader.basicFormula c.ahead) := by
  rw [Reader.basicFormula]
  simp only [basicFormulaBody, Level.basicFormulaAbove, Cursor.get_bind, Reader.peek?_bind,
    Cursor.head?_ahead, Cursor.opensWith_eq]
  cases hpeek : c.peek? 0 with
  | none => exact tracks_fail_end hpeek
  | some t =>
    have hother : Tracks c c.remaining
        ((if Reader.opensWith "(" c.ahead then parenthesisBody call
          else call .infixPredicate) c)
        ((if Reader.opensWith "(" c.ahead then
            Level.formulaElseTerm (Reader.parenthesised (Reader.formula Level.whole))
              Reader.infixPredicate
          else Reader.infixPredicate) c.ahead) := by
      split
      · exact tracks_parenthesis hcall h
      · exact hcall .infixPredicate c h
    rcases t with ⟨lexeme, ⟨label, _ | _ | _⟩ | _ | ⟨label, ⟨arity, positive⟩ | _⟩ | _⟩ | letter |
      _ | _
    case metavariable =>
      refine .take hpeek fun c₁ _ hlt₁ _ => ?_
      refine (tracks_withSubscript hcall _ (by omega)).bind fun name c₂ _ hlt₂ => ?_
      exact (tracks_declaration hcall (by omega)).bind fun declared c₃ _ hlt₃ =>
        tracks_pure (by omega)
    case known.connective.nullary => exact .take hpeek fun c₁ _ hlt₁ _ => tracks_pure hlt₁
    case known.predicate.prefixOp =>
      refine .take hpeek fun c₁ _ hlt₁ _ => ?_
      exact (tracks_application hcall _ _ _ (.term Level.whole)
        (by rw [allowance_parens, allowance_list, allowance_term]; omega)).mono hlt₁.le
    all_goals exact hother

theorem tracks_operand (h : 4 * c.remaining + 6 ≤ fuel) :
    Tracks c c.remaining (operand call c) (Reader.operand c.ahead) := by
  rw [Reader.operand]
  simp only [operand, Level.operandAbove, Cursor.get_bind, Reader.peek?_bind, Cursor.head?_ahead]
  cases hpeek : c.peek? 0 with
  | none => exact tracks_fail_end hpeek
  | some t =>
    have hother := hcall .basicFormula c h
    rcases t with ⟨lexeme, ⟨label, _ | ⟨precedence, note⟩ | _⟩ | label | _ | _⟩ | _ | _ | _
    case known.connective.prefixOp =>
      refine .take hpeek fun c₁ _ hlt₁ _ => ?_
      exact (hcall (.formula _) c₁ (by rw [allowance_formula]; omega)).bind
        fun argument c₂ _ hlt₂ => tracks_pure (by omega)
    case known.quantifier =>
      refine .take hpeek fun c₁ _ hlt₁ _ => ?_
      refine (hcall .name c₁ (by rw [allowance_name]; omega)).bind fun bound c₂ _ hlt₂ => ?_
      split
      · exact tracks_fail trivial
      · exact (hcall (.formula .unreachable) c₂ (by rw [allowance_formula]; omega)).bind
          fun scope c₃ _ hlt₃ => tracks_pure (by omega)
    all_goals exact hother

theorem tracks_formula (m : Threshold) (h : 4 * c.remaining + 6 ≤ fuel) :
    Tracks c c.remaining (formulaBody call fuel m c) (Reader.formula m c.ahead) := by
  rw [Reader.formula_eq]
  exact tracks_infixRest (by omega) (tracks_operand hcall h) fun m c₁ _ hlt₁ =>
    hcall (.formula m) c₁ (by rw [allowance_formula]; omega)

/-- A parser whose calls are carried out is carried out, for one more of the fuel. -/
theorem carries_body : Carries (body call fuel) (fuel + 1) := by
  intro α p c h
  cases p with
  | formula m => exact tracks_formula hcall m (by rw [allowance_formula] at h; omega)
  | basicFormula => exact tracks_basicFormula hcall (by rw [allowance_basicFormula] at h; omega)
  | infixPredicate => exact tracks_infixPredicate hcall (by rw [allowance_infixPredicate] at h; omega)
  | term m => exact tracks_term hcall m (by rw [allowance_term] at h; omega)
  | basicTerm => exact tracks_basicTerm hcall (by rw [allowance_basicTerm] at h; omega)
  | name => exact tracks_name hcall (by rw [allowance_name] at h; omega)
  | subscript => exact tracks_subscript hcall (by rw [allowance_subscript] at h; omega)
  | integer => exact tracks_integer (by rw [allowance_integer] at h; omega)
  | list item =>
    rw [allowance_list] at h
    exact tracks_list (by omega) fun c₁ h₁ =>
      hcall item c₁ (by have := h₁.remaining_le; omega)
  | parens inner =>
    rw [allowance_parens] at h
    exact hcall (.delimited "(" ")" inner) c (by rw [allowance_delimited]; omega)
  -- The parser inside may be allowed more than the delimiters are: it starts behind one of them,
  -- where there is a token less ahead.
  | group inner =>
    rw [allowance_group] at h
    exact tracks_braced fun c₁ _ hlt₁ => hcall inner c₁ (by omega)
  | delimited opening closing inner =>
    rw [allowance_delimited] at h
    exact tracks_delimited opening closing fun c₁ _ hlt₁ => hcall inner c₁ (by omega)

end Bodies

theorem allowance_pos {α : Type} (p : Parser α) : 0 < p.allowance := by
  cases p with
  | group inner => exact Nat.lt_of_succ_le (Nat.le_max_left _ _)
  | delimited opening closing inner => exact Nat.lt_of_succ_le (Nat.le_max_left _ _)
  | _ => simp

/-- Runs with fuel enough track readers. -/
theorem carries_run : ∀ fuel, Carries (run fuel) fuel
  | 0 => fun _ p c h => absurd (allowance_pos p) (by omega)
  | fuel + 1 => carries_body (carries_run fuel)

end Parser

end LatexLogic
