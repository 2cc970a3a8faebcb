import LatexLogic.Proofs.Recovery.Retry
import LatexLogic.Proofs.Rendering.Tokens

/-!
# Bound eigenvariables in parentheses

A quantifier in front of an eigenvariable is an error, and outside parentheses it is the one that is
reported. Only formulas bind: no reader of terms ever reports it (`neverBinds_term`). So where
reading a formula comes upon such a quantifier, in parentheses the second attempt replaces the error
by one about the first logical token (`formula_parens_of_boundEigenvariable`), and the eigenvariable
is never mentioned.

That the quantifier is come upon in parentheses too is not for granted, for what follows it is
different there. A formula fails in this way whatever closes after it
(`formula_append_of_boundEigenvariable`).
-/

set_option autoImplicit false

namespace LatexLogic

open Reader

/-! ## Readers that bind nothing -/

/-- The reader never reports an eigenvariable after a quantifier. -/
def Reader.NeverBinds {α : Type} (r : Reader α) : Prop :=
  ∀ ts v rest, r ts ≠ .error (.fault (.boundEigenvariable v)) rest

section NeverBinds

variable {α β : Type}

theorem Reader.FaultsAtTokens.neverBinds {r : Reader α} (h : r.FaultsAtTokens) : r.NeverBinds :=
  fun ts _ rest hread => h ts _ rest hread

theorem Reader.NeverBinds.bind {x : Reader α} {f : α → Reader β} (hx : x.NeverBinds)
    (hf : ∀ a, (f a).NeverBinds) : (x >>= f).NeverBinds := by
  intro ts v rest h
  rcases bind_eq_error_iff.1 h with h | ⟨a, mid, -, h⟩
  · exact hx ts v rest h
  · exact hf a mid v rest h

theorem Reader.NeverBinds.parenthesised {r : Reader α} (h : r.NeverBinds) :
    (parenthesised r).NeverBinds := by
  intro ts v rest hread
  rcases parenthesised_eq_error hread with hfault | ⟨form, us, inside, -, -, hinner⟩
  · exact hfault
  · exact h inside v rest hinner

theorem Reader.NeverBinds.list {r : Reader α} (hforward : r.Forward) (h : r.NeverBinds) :
    (list r).NeverBinds := by
  intro ts v rest hread
  exact list_fails hforward (n := ts.length) (E := fun _ => False)
    (fun _ hitem => h _ v rest hitem) (fun _ _ _ hlater => hlater) le_rfl hread

theorem neverBinds_infixRest {operator? : Token → Option InfixOperator}
    {operand : Threshold → Reader Tree} {m : Threshold} (hforward : ∀ m, (operand m).Forward)
    (h : ∀ m, (operand m).NeverBinds) (first : Tree) :
    (infixRest operator? operand m first).NeverBinds := by
  intro ts v rest hread
  exact infixRest_fails hforward (n := ts.length) (E := fun _ => False)
    (fun _ _ hoperand => h _ _ v rest hoperand) (fun _ _ _ hlater => hlater) le_rfl hread

theorem neverBinds_application {symbol label : String} {arity : Nat} {argument : Reader Tree}
    (hforward : argument.Forward) (h : argument.NeverBinds) :
    (Level.application symbol label arity argument).NeverBinds := by
  refine (h.list hforward).parenthesised.bind fun args => ?_
  cases happly : Tree.applied symbol label arity args with
  | ok tree => exact (faultsAtTokens_pure tree).neverBinds
  | error error =>
    intro ts v rest hread
    obtain ⟨heq, -⟩ := fail_eq_error_iff.1 hread
    cases heq
    exact absurd (applied_isArgumentCount happly).1 (by simp [FormulaError.isArgumentCount])

end NeverBinds

/-! ## Terms -/

namespace Level

variable {below : Level}

theorem neverBinds_basicTermAbove (hforward : below.Forward)
    (hterm : ∀ m, (below.term m).NeverBinds) (hbasic : below.basicTerm.NeverBinds) :
    (basicTermAbove below).NeverBinds := by
  refine faultsAtTokens_peek?.neverBinds.bind fun o => ?_
  cases o with
  | none => exact (faultsAtTokens_unexpectedEnd none).neverBinds
  | some t =>
    dsimp only
    split
    · exact faultsAtTokens_next?.neverBinds.bind fun _ =>
        neverBinds_application hforward.basicTerm hbasic
    · refine faultsAtTokens_get.neverBinds.bind fun ts => ?_
      split
      · exact (hterm whole).parenthesised
      · exact faultsAtTokens_variableName.neverBinds.bind fun _ =>
          (faultsAtTokens_pure _).neverBinds

theorem neverBinds_termAbove (hforward : below.Forward) (hterm : ∀ m, (below.term m).NeverBinds)
    (hbasic : below.basicTerm.NeverBinds) (m : Threshold) : (termAbove below m).NeverBinds :=
  (neverBinds_basicTermAbove hforward hterm hbasic).bind fun first =>
    neverBinds_infixRest hforward.term hterm first

theorem neverBinds_ofDepth : ∀ depth, (∀ m, ((ofDepth depth).term m).NeverBinds) ∧
    (ofDepth depth).basicTerm.NeverBinds
  | 0 => ⟨nofun, nofun⟩
  | depth + 1 =>
    have ⟨hterm, hbasic⟩ := neverBinds_ofDepth depth
    ⟨neverBinds_termAbove (forward_ofDepth depth) hterm hbasic,
      neverBinds_basicTermAbove (forward_ofDepth depth) hterm hbasic⟩

end Level

theorem neverBinds_term (m : Threshold) : (Reader.term m).NeverBinds :=
  fun ts => (Level.neverBinds_ofDepth (ts.length + 1)).1 m ts

theorem neverBinds_infixPredicate : infixPredicate.NeverBinds := by
  rw [infixPredicate_eq]
  refine (neverBinds_term Level.whole).bind fun left =>
    faultsAtTokens_next.neverBinds.bind fun t => ?_
  split
  · exact (neverBinds_term Level.whole).bind fun right => (faultsAtTokens_pure _).neverBinds
  · exact (faultsAtTokens_badToken _ _).neverBinds

/-! ## Formulas -/

/-- A basic formula never binds: what a group binds is forgotten when the group is read again. -/
theorem neverBinds_basicFormula : basicFormula.NeverBinds := by
  refine faultsAtTokens_peek?.neverBinds.bind fun o => ?_
  cases o with
  | none => exact (faultsAtTokens_unexpectedEnd none).neverBinds
  | some t =>
    dsimp only
    split
    · exact faultsAtTokens_next?.neverBinds.bind fun _ =>
        (faultsAtTokens_metavariable _).neverBinds
    · exact faultsAtTokens_next?.neverBinds.bind fun _ => (faultsAtTokens_pure _).neverBinds
    · exact faultsAtTokens_next?.neverBinds.bind fun _ =>
        neverBinds_application (forward_term _) (neverBinds_term _)
    · refine faultsAtTokens_get.neverBinds.bind fun ts => ?_
      split
      · intro us v rest hread
        simp only [Level.formulaElseTerm] at hread
        split at hread
        · cases hread
        · split at hread
          · exact neverBinds_infixPredicate us v rest hread
          · next hfinal =>
            cases hread
            exact hfinal rfl
      · exact neverBinds_infixPredicate

section Bound

variable {ts rest : List Token} {v : String}

/-- An operand that binds an eigenvariable starts with an operator, which is logical. -/
theorem operatorNext_of_boundEigenvariable
    (h : Reader.operand ts = .error (.fault (.boundEigenvariable v)) rest) : OperatorNext ts := by
  by_contra hno
  rw [operand_eq_basicFormula hno] at h
  exact neverBinds_basicFormula ts v rest h

theorem Reader.OperatorNext.exists_logical (h : OperatorNext ts) :
    ∃ t us, ts = t :: us ∧ t.isLogical = true := by
  rcases h with ⟨lexeme, label, precedence, note, us, rfl⟩ | ⟨lexeme, label, us, rfl⟩
  · exact ⟨_, us, rfl, rfl⟩
  · exact ⟨_, us, rfl, rfl⟩

/-- Where reading comes upon a bound eigenvariable it has come past a logical token, and a term
stops at the first one. -/
theorem exists_stopsTerm_of_boundEigenvariable {m : Threshold} (hplain : ∀ t ∈ ts, t.Plain)
    (h : Reader.formula m ts = .error (.fault (.boundEigenvariable v)) rest) :
    ∃ w t r, FirstLogical ts w t r ∧ StopsTerm w t := by
  rw [formula_eq] at h
  rcases bind_eq_error_iff.1 h with hoperand | ⟨first, mid, hoperand, -⟩
  · obtain ⟨t, us, rfl, ht⟩ := (operatorNext_of_boundEigenvariable hoperand).exists_logical
    exact ⟨[], t, us, ⟨rfl, by simp, ht⟩, stopsTerm_nil ht (hplain t List.mem_cons_self)⟩
  · obtain ⟨u, rfl, hu⟩ := FormulaDerivation.of_operand hoperand
    obtain ⟨w, t, s, hfirst⟩ := FirstLogical.exists_of_mem (hu.exists_logical nofun)
    refine ⟨w, t, s ++ mid, ⟨?_, hfirst.before, hfirst.logical⟩, ?_⟩
    · rw [hfirst.eq_append, List.append_assoc, List.cons_append]
    · exact hu.stopsTerm (List.forall_mem_append.1 hplain).1 hfirst

/-! ## What follows -/

/-- The tokens begin with an operator of a run. -/
def ConnectiveNext (ts : List Token) : Prop :=
  ∃ t us op, ts = t :: us ∧ t.infixConnective? = some op

variable {ws : List Token}

theorem ConnectiveNext.alike (h : ConnectiveNext ts) (hplain : ∀ t ∈ ts, t.Plain) :
    Alike ts (ts ++ ws) := by
  obtain ⟨t, us, op, rfl, hop⟩ := h
  obtain ⟨lexeme, precedence, side, rfl⟩ := Token.infixConnective?_eq_some hop
  exact .cons (hplain _ List.mem_cons_self).notMem_parenTexts

theorem nextIs_underscore_append (hends : Ends ws) (us : List Token) :
    nextIs "_" (us ++ ws) = nextIs "_" us := by
  cases us with
  | nil => exact hends.nextIs_eq_false (by decide)
  | cons t us => rfl

theorem plain_append_of_suffix (h : rest <:+ ts) (hplain : ∀ t ∈ ts ++ ws, t.Plain) :
    ∀ t ∈ rest ++ ws, t.Plain := by
  rw [List.forall_mem_append] at hplain ⊢
  exact ⟨fun t ht => hplain.1 t (h.mem ht), hplain.2⟩

/-- What is read in front of an operator of a run is read there too if more follows. -/
theorem FormulaDerivation.reads_append {p : FormulaPhrase} {u : List Token} {tree : Tree}
    (h : FormulaDerivation p u tree rest) (hrest : ConnectiveNext rest)
    (hplain : ∀ t ∈ (u ++ rest) ++ ws, t.Plain) :
    p.Reads ((u ++ rest) ++ ws) tree (rest ++ ws) := by
  rw [List.append_assoc] at hplain ⊢
  have hparts := List.forall_mem_append.1 hplain
  have halike : Alike rest (rest ++ ws) :=
    hrest.alike fun t ht => hparts.2 t (List.mem_append_left _ ht)
  exact (h.change_rest hparts.1 halike).reads hplain

/-- An operand binds an eigenvariable in front of everything that ends a formula, if shorter
formulas do. -/
theorem operand_append_of_boundEigenvariable (hends : Ends ws)
    (ih : ∀ us : List Token, us.length < ts.length → (∀ t ∈ us ++ ws, t.Plain) → ∀ m,
      Reader.formula m us = .error (.fault (.boundEigenvariable v)) rest →
      ∃ rest', Reader.formula m (us ++ ws) = .error (.fault (.boundEigenvariable v)) rest')
    (hplain : ∀ t ∈ ts ++ ws, t.Plain)
    (h : Reader.operand ts = .error (.fault (.boundEigenvariable v)) rest) :
    ∃ rest', Reader.operand (ts ++ ws) = .error (.fault (.boundEigenvariable v)) rest' := by
  rcases operatorNext_of_boundEigenvariable h with
    ⟨lexeme, label, precedence, note, us, rfl⟩ | ⟨lexeme, label, us, rfl⟩
  · rw [operand_before] at h
    rcases bind_eq_error_iff.1 h with hargument | ⟨_, _, -, hpure⟩
    · obtain ⟨rest', hread⟩ := ih us (by simp) (List.forall_mem_cons.1 hplain).2 _ hargument
      exact ⟨rest', by rw [List.cons_append, operand_before, bind_of_eq_error hread]⟩
    · exact absurd hpure pure_ne_error
  · rw [operand_quantified] at h
    rcases bind_eq_error_iff.1 h with hname | ⟨bound, mid, hbound, hmore⟩
    · exact absurd hname (faultsAtTokens_variableName.neverBinds us v rest)
    · obtain ⟨u, rfl, hspelled⟩ := exists_of_variableName hbound
      have hbound' : variableName (u ++ (mid ++ ws)) = .ok bound (mid ++ ws) :=
        variableName_eq_ok_iff.2 (hspelled.change_rest (nextIs_underscore_append hends mid).trans)
      rw [List.cons_append, operand_quantified, List.append_assoc, bind_of_eq_ok hbound']
      cases heigen : isEigenvariable bound with
      | true =>
        simp only [heigen, if_true, fail_eq_error_iff, Failure.fault.injEq,
          FormulaError.boundEigenvariable.injEq] at hmore
        obtain ⟨rfl, -⟩ := hmore
        exact ⟨mid ++ ws, rfl⟩
      | false =>
        simp only [heigen, Bool.false_eq_true, if_false] at hmore ⊢
        rcases bind_eq_error_iff.1 hmore with hscope | ⟨_, _, -, hpure⟩
        · have hinside : ∀ t ∈ mid ++ ws, t.Plain := by
            rw [List.cons_append, List.forall_mem_cons, List.append_assoc] at hplain
            exact (List.forall_mem_append.1 hplain.2).2
          obtain ⟨rest', hread⟩ := ih mid
            (by rw [List.length_cons, List.length_append]; omega) hinside _ hscope
          exact ⟨rest', by rw [bind_of_eq_error hread]⟩
        · exact absurd hpure pure_ne_error

/-- A formula that binds an eigenvariable does so in front of everything that ends a formula. The
induction is on the number of tokens. -/
theorem formula_append_of_boundEigenvariable {m : Threshold} (hends : Ends ws)
    (hplain : ∀ t ∈ ts ++ ws, t.Plain)
    (h : Reader.formula m ts = .error (.fault (.boundEigenvariable v)) rest) :
    ∃ rest', Reader.formula m (ts ++ ws) = .error (.fault (.boundEigenvariable v)) rest' := by
  induction hlength : ts.length using Nat.strong_induction_on generalizing m ts with
  | _ n ihn =>
    subst hlength
    have ih : ∀ us : List Token, us.length < ts.length → (∀ t ∈ us ++ ws, t.Plain) → ∀ m,
        Reader.formula m us = .error (.fault (.boundEigenvariable v)) rest →
        ∃ rest', Reader.formula m (us ++ ws) = .error (.fault (.boundEigenvariable v)) rest' :=
      fun us hus hplain m h => ihn us.length hus hplain h rfl
    rw [formula_eq] at h
    rcases bind_eq_error_iff.1 h with hoperand | ⟨first, mid, hoperand, hrun⟩
    · obtain ⟨rest', hread⟩ := operand_append_of_boundEigenvariable hends ih hplain hoperand
      exact ⟨rest', by rw [formula_eq, bind_of_eq_error hread]⟩
    · have hle := (forward_operand.ok hoperand).length_le
      -- A run that fails goes on with an operator, so what it follows is read as before.
      have hmore : ConnectiveNext mid ∧ ((∀ t ∈ mid ++ ws, t.Plain) → ∀ left, ∃ rest',
          infixRest Token.infixConnective? Reader.formula m left (mid ++ ws) =
            .error (.fault (.boundEigenvariable v)) rest') := by
        refine infixRest_fails forward_formula (n := ts.length) (E := fun us => ConnectiveNext us ∧
          ((∀ t ∈ us ++ ws, t.Plain) → ∀ left, ∃ rest',
            infixRest Token.infixConnective? Reader.formula m left (us ++ ws) =
              .error (.fault (.boundEigenvariable v)) rest')) ?here ?later hle hrun
        case here =>
          intro t us op hus hop hright
          rw [continuing?_cons, Option.filter_eq_some_iff] at hop
          refine ⟨⟨t, us, op, rfl, hop.1⟩, fun hplain left => ?_⟩
          obtain ⟨rest', hread⟩ := ih us hus (List.forall_mem_cons.1 hplain).2 _ hright
          exact ⟨rest', by
            rw [List.cons_append,
              infixRest_of_some forward_formula (continuing?_of_admits hop.1 hop.2 _),
              bind_of_eq_error hread]⟩
        case later =>
          intro t us op right mid hus hop hright ⟨hnext, hmid⟩
          rw [continuing?_cons, Option.filter_eq_some_iff] at hop
          refine ⟨⟨t, us, op, rfl, hop.1⟩, fun hplain left => ?_⟩
          have hinside := (List.forall_mem_cons.1 hplain).2
          have hmidPlain := plain_append_of_suffix ((forward_formula _).ok hright) hinside
          obtain ⟨rest', hfails⟩ := hmid hmidPlain (.node op.label [left, right])
          obtain ⟨u, rfl, hu⟩ := FormulaDerivation.of_formula hright
          have hread : Reader.formula _ _ = _ := hu.reads_append hnext hinside
          exact ⟨rest', by
            rw [List.cons_append,
              infixRest_of_some forward_formula (continuing?_of_admits hop.1 hop.2 _),
              bind_of_eq_ok hread, hfails]⟩
      obtain ⟨hnext, hrun⟩ := hmore
      obtain ⟨rest', hfails⟩ :=
        hrun (plain_append_of_suffix (forward_operand.ok hoperand) hplain) first
      obtain ⟨u, rfl, hu⟩ := FormulaDerivation.of_operand hoperand
      have hread : Reader.operand _ = _ := hu.reads_append hnext hplain
      exact ⟨rest', by rw [formula_eq, bind_of_eq_ok hread, hfails]⟩

end Bound

/-! ## In parentheses -/

section Parens

open Lexeme (tokens)

/-- In parentheses of either form a formula that binds an eigenvariable fails at its first logical
token. The error says that this token is unexpected; the eigenvariable is not mentioned. -/
theorem formula_parens_of_boundEigenvariable {table : Table} (htable : table.KeepsDelimiters)
    {ls : List Lexeme} {v : String} {rest : List Token}
    (h : Reader.formula Level.whole (tokens table ls) =
      .error (.fault (.boundEigenvariable v)) rest) (form : Form) (m : Threshold) :
    ∃ w t r expected rest', FirstLogical (tokens table ls) w t r ∧
      Reader.formula m (tokens table (Lexeme.parens form ls)) =
        .error (.fault (.badToken t.written expected)) rest' := by
  have hplain := plain_tokens htable ls
  obtain ⟨w, t, r, hfirst, hstops⟩ := exists_stopsTerm_of_boundEigenvariable hplain h
  have hopen := opening_tokens table form
  have hus := plain_tokens htable (Lexeme.opening form)
  have hends : Ends (tokens table (Lexeme.closing form) ++ []) := ends_closing htable form
  rw [List.append_nil] at hends
  have hinside : ∀ t ∈ tokens table ls ++ tokens table (Lexeme.closing form), t.Plain :=
    List.forall_mem_append.2 ⟨hplain, plain_tokens htable _⟩
  -- The first attempt comes upon the eigenvariable, which leaves room for a term.
  obtain ⟨rest₁, hformula⟩ := formula_append_of_boundEigenvariable hends hinside h
  have hattempt : parenthesised (Reader.formula Level.whole) (tokens table (Lexeme.opening form) ++
      (tokens table ls ++ tokens table (Lexeme.closing form))) =
        .error (.fault (.boundEigenvariable v)) rest₁ := by
    rw [parenthesised_of_opening hopen, bind_of_eq_error hformula]
  have hsecond := basicFormula_of_attempt hopen hus hattempt rfl
  have hts : tokens table ls ++ tokens table (Lexeme.closing form) =
      w ++ t :: (r ++ tokens table (Lexeme.closing form)) := by
    rw [hfirst.eq_append, List.append_assoc, List.cons_append]
  obtain ⟨expected, rest', hretry⟩ := infixPredicate_of_stopsTerm hopen hus hfirst.logical
    (hplain t hfirst.mem) hstops (r ++ tokens table (Lexeme.closing form))
  refine ⟨w, t, r, expected, rest', hfirst, ?_⟩
  rw [tokens_parens, formula_eq]
  refine bind_of_eq_error ?_
  rw [operand_of_opening hopen hus, hsecond, hts, hretry]

/-- In `(\\forall a a=a)` the quantifier is the unexpected token. -/
theorem formula_parens_of_boundEigenvariable_forall :
    ∃ w t r expected rest', FirstLogical (tokens Table.standard
        [.control "forall", .char 'a', .char 'a', .char '=', .char 'a']) w t r ∧
      Reader.formula Level.whole (tokens Table.standard (Lexeme.parens .short
        [.control "forall", .char 'a', .char 'a', .char '=', .char 'a'])) =
        .error (.fault (.badToken t.written expected)) rest' := by
  have hread : Reader.formula Level.whole (tokens Table.standard
      [.control "forall", .char 'a', .char 'a', .char '=', .char 'a']) =
      .error (.fault (.boundEigenvariable "a"))
        (tokens Table.standard [.char 'a', .char '=', .char 'a']) := by rfl
  exact formula_parens_of_boundEigenvariable Table.standard_keepsDelimiters hread .short Level.whole

/-- Parentheses do not keep the error about an eigenvariable, not even in the standard table. -/
theorem not_boundEigenvariable_of_parens :
    ¬ ∀ table : Table, table.KeepsDelimiters → ∀ (ls : List Lexeme) (v : String) (rest : List Token),
      Reader.formula Level.whole (tokens table ls) = .error (.fault (.boundEigenvariable v)) rest →
      ∀ form : Form, ∃ rest', Reader.formula Level.whole (tokens table (Lexeme.parens form ls)) =
        .error (.fault (.boundEigenvariable v)) rest' := by
  intro h
  have hparens : Reader.formula Level.whole (tokens Table.standard (Lexeme.parens .short
      [.control "forall", .char 'a', .char 'a', .char '=', .char 'a'])) =
      .error (.fault (.badToken "\\forall" none))
        (tokens Table.standard [.char 'a', .char 'a', .char '=', .char 'a', .char ')']) := by rfl
  obtain ⟨rest', hread⟩ := h Table.standard Table.standard_keepsDelimiters
    [.control "forall", .char 'a', .char 'a', .char '=', .char 'a'] "a" _ rfl .short
  rw [hparens] at hread
  cases hread

end Parens

end LatexLogic
