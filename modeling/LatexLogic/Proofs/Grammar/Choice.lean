import LatexLogic.Proofs.Grammar.Fault

/-!
# The choice at a parenthesis

An opening parenthesis may start a formula in parentheses or the left term of an infix predicate.
The reader tries the formula first and does not always come back. Where delimiters keep their
meaning nothing is lost by that: what a parenthesis groups is either a formula or a term
(`not_term_of_formula`), and an operator inside it that has the wrong number of arguments for a
formula has it for a term too (`not_term_of_argumentCount`). So a basic formula is read exactly if
one of the two is (`basicFormula_eq_ok_iff_of_opening`), and every derivation of a formula is read
(`FormulaDerivation.reads`).
-/

set_option autoImplicit false

namespace LatexLogic

open Reader

section Opening

variable {ts rest : List Token} {tree : Tree}

/-! ## One of two -/

/-- A term that starts with a parenthesis has a whole term inside it. -/
theorem exists_of_term_opening {form : Form} {us inside : List Token} {m : Threshold}
    (hopen : Opening form us) (hplain : ∀ t ∈ us, t.Plain)
    (h : Reader.term m (us ++ inside) = .ok tree rest) :
    ∃ u vs rest' tree', Closing form vs ∧ inside = u ++ (vs ++ rest') ∧
      TermDerivation (.term Level.whole) u tree' (vs ++ rest') := by
  rw [term_eq, bind_eq_ok_iff] at h
  obtain ⟨first, mid, hfirst, -⟩ := h
  rw [basicTerm_of_opening hopen hplain] at hfirst
  obtain ⟨form', us', inside', vs, hopen', hclose, heq, hinner⟩ := parenthesised_eq_ok_iff.1 hfirst
  obtain ⟨rfl, rfl, rfl⟩ := hopen.unique hopen' heq
  obtain ⟨u, rfl, hu⟩ := TermDerivation.of_term hinner
  exact ⟨u, vs, mid, first, hclose, rfl, hu⟩

theorem exists_term_of_infixPredicate (h : infixPredicate ts = .ok tree rest) :
    ∃ left mid, Reader.term Level.whole ts = .ok left mid := by
  rw [infixPredicate_eq, bind_eq_ok_iff] at h
  obtain ⟨left, mid, hleft, -⟩ := h
  exact ⟨left, mid, hleft⟩

/-- Where a formula in parentheses is read no term is. The two would be made of the same tokens, of
which a formula has a logical one and a term none. -/
theorem not_term_of_formula (hplain : ∀ t ∈ ts, t.Plain)
    (h : parenthesised (Reader.formula Level.whole) ts = .ok tree rest) (m : Threshold)
    (tree' : Tree) (rest' : List Token) : Reader.term m ts ≠ .ok tree' rest' := by
  intro hterm
  obtain ⟨form, us, inside, vs, hopen, hclose, rfl, hinner⟩ := parenthesised_eq_ok_iff.1 h
  rw [List.forall_mem_append] at hplain
  obtain ⟨u, rfl, hu⟩ := FormulaDerivation.of_formula hinner
  obtain ⟨v, vs', mid, first, hclose', heq, hv⟩ := exists_of_term_opening hopen hplain.1 hterm
  -- Both groups end at the parenthesis that closes the first one.
  have hplainU := (List.forall_mem_append.1 hplain.2).1
  have hplainV := (List.forall_mem_append.1 (heq ▸ hplain.2)).1
  obtain rfl := (hu.balanced hplainU).unique (hv.balanced hplainV) hclose hclose' heq
  obtain ⟨t, ht, hlogical⟩ := hu.exists_logical nofun
  rw [hv.not_logical hplainU t ht] at hlogical
  cases hlogical

/-! ## Wrong numbers of arguments -/

theorem applied_isArgumentCount {symbol label : String} {arity : Int} {args : List Tree}
    {error : FormulaError} (h : Tree.applied symbol label arity args = .error error) :
    error.isArgumentCount = true ∧ (args.length : Int) ≠ arity := by
  unfold Tree.applied at h
  split at h
  · cases h
  · next hne =>
    cases h
    exact ⟨FormulaError.isArgumentCount_ofCount _ _ _, hne⟩

/-- Where a formula in parentheses fails with a wrong number of arguments no term is read. The
operator stands inside the parentheses. If it is a predicate it belongs to no term, and if it is a
function the term reads the same arguments. -/
theorem not_term_of_argumentCount {error : FormulaError} (hplain : ∀ t ∈ ts, t.Plain)
    (hcount : error.isArgumentCount = true)
    (h : parenthesised (Reader.formula Level.whole) ts = .error (.fault error) rest) (m : Threshold)
    (tree' : Tree) (rest' : List Token) : Reader.term m ts ≠ .ok tree' rest' := by
  intro hterm
  have hno : ¬ IsTokenFault (.fault error) := by
    intro hfault
    cases error <;> first | exact hfault | cases hcount
  rcases parenthesised_eq_error h with hfault | ⟨form, us, inside, hopen, rfl, hinner⟩
  · exact hno hfault
  · rw [List.forall_mem_append] at hplain
    -- The token at fault stands before the parenthesis that ends the term.
    obtain ⟨pre, post, rfl, hpre, hpost⟩ := failsAfter_unclosed hplain.2 hinner
    obtain ⟨u, vs, mid, first, hclose, heq, hu⟩ := exists_of_term_opening hopen hplain.1 hterm
    have hplainInside := heq ▸ hplain.2
    rw [List.forall_mem_append, List.forall_mem_append] at hplainInside
    obtain ⟨hplainU, hplainVs, -⟩ := hplainInside
    obtain ⟨t, ws, hsplit⟩ :=
      (hu.balanced hplainU).exists_of_unclosed hclose hpre heq
    obtain rfl : post = t :: (ws ++ mid) := by
      rw [← List.append_assoc, hsplit, List.append_assoc] at heq
      exact List.append_cancel_left heq
    -- So it is a token of the term, where prefix functions are applied and nothing is logical.
    have happlied : Applied (t :: ws) mid :=
      Applied.of_append (u := pre) (hsplit ▸
        (hu.applied hplainU).append (applied_of_delimiters hplainVs hclose.mem_delimiters))
    have hlogical : t.isLogical = false := by
      have ht : t ∈ u ++ vs := hsplit ▸ List.mem_append_right _ List.mem_cons_self
      rcases List.mem_append.1 ht with ht | ht
      · exact hu.not_logical hplainU t ht
      · exact ((hplainVs t ht).isBare (hclose.mem_delimiters t ht)).isLogical
    cases hpost with
    | token hfault => exact hno hfault
    | eigenvariable _ _ => cases hcount
    | @function _ _ arity _ _ _ _ _ _ hargs happly =>
      obtain ⟨args', rest'', hread, harity⟩ := happlied.1 arity rfl
      rw [hargs] at hread
      cases hread
      exact (applied_isArgumentCount happly).2 (by exact_mod_cast harity)
    | predicate _ _ => cases hlogical

/-- Without a limit no list of tokens is too deep. -/
theorem parenthesised_formula_ne_tooDeep (hplain : ∀ t ∈ ts, t.Plain) :
    parenthesised (Reader.formula Level.whole) ts ≠ .error .tooDeep rest := by
  intro h
  rcases parenthesised_eq_error h with hfault | ⟨form, us, inside, -, rfl, hinner⟩
  · exact hfault
  · obtain ⟨pre, post, rfl, -, hpost⟩ :=
      failsAfter_unclosed (fun t ht => hplain t (List.mem_append_right _ ht)) hinner
    exact hpost.ne_tooDeep rfl

/-- Where a term is read a formula in parentheses does not fail for good. -/
theorem leavesTerm_of_term {failure : Failure} {m : Threshold} {left : Tree} {mid : List Token}
    (hplain : ∀ t ∈ ts, t.Plain) (hterm : Reader.term m ts = .ok left mid)
    (h : parenthesised (Reader.formula Level.whole) ts = .error failure rest) :
    Level.leavesTerm failure = true := by
  by_contra hfinal
  -- The two failures after which no term is tried.
  cases failure with
  | tooDeep => exact parenthesised_formula_ne_tooDeep hplain h
  | fault error =>
    have hcount : error.isArgumentCount = true := by simpa [Level.leavesTerm] using hfinal
    exact not_term_of_argumentCount hplain hcount h _ _ _ hterm

/-! ## Basic formulas -/

/-- A basic formula at a token that is not logical is read as one of the two, or as the second if no
parenthesis stands there. -/
theorem basicFormula_of_not_logical {t : Token} {us : List Token} (h : t.isLogical = false) :
    basicFormula (t :: us) =
      if opensWith "(" (t :: us) then
        Level.formulaElseTerm (parenthesised (Reader.formula Level.whole)) infixPredicate (t :: us)
      else infixPredicate (t :: us) := by
  have hread : basicFormula (t :: us) = (if opensWith "(" (t :: us) then
      Level.formulaElseTerm (parenthesised (Reader.formula Level.whole)) infixPredicate
      else infixPredicate : Reader Tree) (t :: us) := by
    rcases t with ⟨lexeme, ⟨_, _⟩ | _ | ⟨_, _⟩ | ⟨_, _⟩⟩ | _ | _ | _
    case known.connective => cases h
    case known.quantifier => cases h
    case known.predicate => cases h
    case metavariable => cases h
    all_goals rfl
  rw [hread]
  cases opensWith "(" (t :: us) <;> rfl

theorem operand_of_not_logical {t : Token} {us : List Token} (h : t.isLogical = false) :
    Reader.operand (t :: us) = basicFormula (t :: us) := by
  refine operand_eq_basicFormula ?_
  rintro (⟨lexeme, label, precedence, note, vs, heq⟩ | ⟨lexeme, label, vs, heq⟩)
  · rw [(List.cons.inj heq).1] at h
    cases h
  · rw [(List.cons.inj heq).1] at h
    cases h

/-- At a parenthesis a basic formula is read exactly if a formula in parentheses or an infix
predicate is read there. -/
theorem basicFormula_eq_ok_iff_of_opening (hplain : ∀ t ∈ ts, t.Plain)
    (hopen : opensWith "(" ts = true) :
    basicFormula ts = .ok tree rest ↔
      parenthesised (Reader.formula Level.whole) ts = .ok tree rest ∨
        infixPredicate ts = .ok tree rest := by
  have hread : basicFormula ts =
      Level.formulaElseTerm (parenthesised (Reader.formula Level.whole)) infixPredicate ts := by
    obtain ⟨form, us, inside, hus, rfl⟩ := opensWith_iff.1 hopen
    obtain ⟨t, us', rfl, hbare⟩ := hus.exists_bare fun t ht => hplain t (List.mem_append_left _ ht)
    rw [List.cons_append, basicFormula_of_not_logical hbare.isLogical]
    exact if_pos hopen
  rw [hread, Level.formulaElseTerm]
  cases hformula : parenthesised (Reader.formula Level.whole) ts with
  | ok tree' rest' =>
    have hno : infixPredicate ts ≠ .ok tree rest := by
      intro hterm
      obtain ⟨left, mid, hleft⟩ := exists_term_of_infixPredicate hterm
      exact not_term_of_formula hplain hformula _ _ _ hleft
    simp [hno]
  | error failure rest' =>
    cases hleaves : Level.leavesTerm failure with
    | true => simp [hleaves]
    | false =>
      have hno : infixPredicate ts ≠ .ok tree rest := by
        intro hterm
        obtain ⟨left, mid, hleft⟩ := exists_term_of_infixPredicate hterm
        rw [leavesTerm_of_term hplain hleft hformula] at hleaves
        cases hleaves
      simp [hleaves, hno]

end Opening

theorem Table.standard_keepsDelimiters : Table.standard.KeepsDelimiters := by
  decide

/-- Committing to the formula at an opening parenthesis loses nothing. The two ways of reading never
both succeed; a wrong number of arguments is one for the term too; where the formula is read no term
is; and so a basic formula is read exactly if one of the two is, with the same tree up to the same
token. -/
theorem parenthesis_choice {table : Table} (htable : table.KeepsDelimiters) (ls : List Lexeme)
    (hopen : opensWith "(" (ls.map (Token.ofLexeme table)) = true) :
    let ts := ls.map (Token.ofLexeme table)
    let asFormula := parenthesised (Reader.formula Level.whole) ts
    let asTerm := infixPredicate ts
    (∀ tree rest, asFormula = .ok tree rest → ∀ tree' rest', asTerm ≠ .ok tree' rest') ∧
      (∀ symbol expected actual rest,
        asFormula = .error (.fault (.wrongArgumentCount symbol expected actual)) rest →
        ∀ tree' rest', asTerm ≠ .ok tree' rest') ∧
      (∀ tree rest, asFormula = .ok tree rest →
        ∀ m tree' rest', Reader.term m ts ≠ .ok tree' rest') ∧
      ∀ tree rest, basicFormula ts = .ok tree rest ↔
        asFormula = .ok tree rest ∨ asTerm = .ok tree rest := by
  intro ts asFormula asTerm
  have hplain : ∀ t ∈ ts, t.Plain := Token.plain_of_mem_map htable ls
  refine ⟨?_, ?_, ?_, ?_⟩
  · intro tree rest hformula tree' rest' hterm
    obtain ⟨left, mid, hleft⟩ := exists_term_of_infixPredicate hterm
    exact not_term_of_formula hplain hformula _ _ _ hleft
  · intro symbol expected actual rest hformula tree' rest' hterm
    obtain ⟨left, mid, hleft⟩ := exists_term_of_infixPredicate hterm
    exact not_term_of_argumentCount hplain rfl hformula _ _ _ hleft
  · intro tree rest hformula
    exact not_term_of_formula hplain hformula
  · intro tree rest
    exact basicFormula_eq_ok_iff_of_opening hplain hopen

/-- The parentheses of the equation `(x)=x` group a term. -/
theorem parenthesis_choice_equation :
    basicFormula ([.char '(', .char 'x', .char ')', .char '=', .char 'x'].map
        (Token.ofLexeme Table.standard)) = .ok (.node "eq" [.atom "x", .atom "x"]) [] := by
  have hterm : infixPredicate ([.char '(', .char 'x', .char ')', .char '=', .char 'x'].map
      (Token.ofLexeme Table.standard)) = .ok (.node "eq" [.atom "x", .atom "x"]) [] := by rfl
  exact ((parenthesis_choice Table.standard_keepsDelimiters _ (by decide)).2.2.2 _ _).2
    (Or.inr hterm)

/-! ## Derivations are read -/

/-- The tokens of a term are not empty. -/
theorem TermDerivation.ne_nil {p : TermPhrase} {u rest : List Token} {tree : Tree}
    (h : TermDerivation p u tree rest) : (∃ m left, p = .more m left) ∨ u ≠ [] := by
  induction h with
  | term _ _ ihfirst _ =>
    obtain ⟨m, left, hphrase⟩ | hne := ihfirst
    · cases hphrase
    · exact Or.inr (List.append_ne_nil_of_left_ne_nil hne _)
  | stop _ => exact Or.inl ⟨_, _, rfl⟩
  | step _ _ _ _ _ _ => exact Or.inl ⟨_, _, rfl⟩
  | name hname =>
    right
    rintro rfl
    exact absurd hname.length_lt (lt_irrefl _)
  | parens hopen _ _ _ => exact Or.inr (List.append_ne_nil_of_left_ne_nil hopen.ne_nil _)
  | application _ _ _ _ _ => exact Or.inr (List.cons_ne_nil _ _)
  | @last kind _ _ _ _ _ _ _ ih =>
    obtain ⟨m, left, hphrase⟩ | hne := ih
    · cases kind <;> cases hphrase
    · exact Or.inr hne
  | comma _ _ _ _ _ => exact Or.inr (by simp)

/-- The first token of a term is not logical. -/
theorem TermDerivation.exists_head {m : Threshold} {u rest : List Token} {tree : Tree}
    (h : TermDerivation (.term m) u tree rest) (hplain : ∀ t ∈ u, t.Plain) :
    ∃ t us, u = t :: us ∧ t.isLogical = false := by
  cases u with
  | nil =>
    obtain ⟨m, left, hphrase⟩ | hne := h.ne_nil
    · cases hphrase
    · exact absurd rfl hne
  | cons t us => exact ⟨t, us, rfl, h.not_logical hplain t List.mem_cons_self⟩

/-- An infix predicate that is derived is read, as a basic formula too. -/
theorem basicFormula_of_comparison {lexeme : Lexeme} {label : String} {u v rest : List Token}
    {left right : Tree}
    (hleft : TermDerivation (.term Level.whole) u left
      (.known lexeme (.predicate label .infixOp) :: (v ++ rest)))
    (hright : TermDerivation (.term Level.whole) v right rest)
    (hplain : ∀ t ∈ u ++ .known lexeme (.predicate label .infixOp) :: (v ++ rest), t.Plain) :
    basicFormula (u ++ .known lexeme (.predicate label .infixOp) :: (v ++ rest)) =
      .ok (.node label [left, right]) rest := by
  have hparts := List.forall_mem_append.1 hplain
  have hv : ∀ t ∈ v, t.Plain := fun t ht =>
    hparts.2 t (List.mem_cons_of_mem _ (List.mem_append_left _ ht))
  have hpredicate : infixPredicate (u ++ .known lexeme (.predicate label .infixOp) :: (v ++ rest)) =
      .ok (.node label [left, right]) rest := by
    have hreadLeft : Reader.term Level.whole _ = _ := hleft.reads hparts.1
    have hreadRight : Reader.term Level.whole _ = _ := hright.reads hv
    rw [infixPredicate_eq, bind_of_eq_ok hreadLeft, bind_of_eq_ok (next_eq_ok_iff.2 rfl)]
    exact (bind_of_eq_ok hreadRight).trans rfl
  cases hopen : opensWith "(" (u ++ .known lexeme (.predicate label .infixOp) :: (v ++ rest)) with
  | true => exact (basicFormula_eq_ok_iff_of_opening hplain hopen).2 (Or.inr hpredicate)
  | false =>
    obtain ⟨t, us, rfl, hlogical⟩ := hleft.exists_head hparts.1
    rw [List.cons_append] at hopen hpredicate ⊢
    rw [basicFormula_of_not_logical hlogical, hopen]
    exact hpredicate

/-- What the reader of a phrase answers. -/
def FormulaPhrase.Reads : FormulaPhrase → List Token → Tree → List Token → Prop
  | formula m, ts, tree, rest => Reader.formula m ts = .ok tree rest
  | more m left, ts, tree, rest =>
    infixRest Token.infixConnective? Reader.formula m left ts = .ok tree rest
  | operand, ts, tree, rest => Reader.operand ts = .ok tree rest
  | basic, ts, tree, rest =>
    basicFormula ts = .ok tree rest ∧ Reader.operand ts = .ok tree rest

/-- Every derivation of a part of a formula is read as such. -/
theorem FormulaDerivation.reads {p : FormulaPhrase} {u rest : List Token} {tree : Tree}
    (h : FormulaDerivation p u tree rest) (hplain : ∀ t ∈ u ++ rest, t.Plain) :
    p.Reads (u ++ rest) tree rest := by
  induction h with
  | @formula m u v rest first tree _ _ ihfirst ihmore =>
    rw [List.append_assoc] at hplain ⊢
    have hfirst : Reader.operand (u ++ (v ++ rest)) = .ok first (v ++ rest) := ihfirst hplain
    show Reader.formula m (u ++ (v ++ rest)) = _
    rw [formula_eq, bind_of_eq_ok hfirst]
    exact ihmore (List.forall_mem_append.1 hplain).2
  | stop hop => exact infixRest_of_none hop _
  | @step m t op u v rest left right tree hop hadmits _ _ ihright ihmore =>
    rw [List.cons_append, List.append_assoc] at hplain ⊢
    have hinside := (List.forall_mem_cons.1 hplain).2
    have hright : Reader.formula (.power op.rightPower) (u ++ (v ++ rest)) =
        .ok right (v ++ rest) := ihright hinside
    show infixRest Token.infixConnective? Reader.formula m left (t :: (u ++ (v ++ rest))) = _
    rw [infixRest_of_some forward_formula (continuing?_of_admits hop hadmits _),
      bind_of_eq_ok hright]
    exact ihmore (List.forall_mem_append.1 hinside).2
  | @before lexeme label precedence note u rest argument _ ih =>
    exact operand_before_of_eq_ok (ih (List.forall_mem_cons.1 hplain).2)
  | @quantified lexeme label bound u v rest scope hname heigen _ ih =>
    rw [List.cons_append, List.append_assoc] at hplain ⊢
    have hinside := List.forall_mem_append.1 (List.forall_mem_cons.1 hplain).2
    exact operand_quantified_of_eq_ok (variableName_eq_ok_iff.2 hname) heigen (ih hinside.2)
  | basicOperand _ ih => exact (ih hplain).2
  | metavariable hread => exact ⟨hread, hread⟩
  | constant => exact ⟨rfl, rfl⟩
  | @predicate lexeme label arity positive form us u vs rest args hopen hclose hargs harity =>
    rw [List.cons_append, List.append_assoc, List.append_assoc] at hplain ⊢
    have hinside : ∀ t ∈ u, t.Plain := fun t ht => hplain t
      (List.mem_cons_of_mem _ (List.mem_append_right _ (List.mem_append_left _ ht)))
    obtain ⟨args', hread, hnode⟩ := hargs.reads hinside
    obtain rfl : args = args' := (Tree.node.inj hnode).2
    have happlication : Level.application lexeme.written label arity (Reader.term Level.whole)
        (us ++ (u ++ (vs ++ rest))) = .ok (.node label args) rest := application_eq_ok_iff.2
      ⟨args, parenthesised_eq_ok_iff.2 ⟨form, us, _, vs, hopen, hclose, rfl, hread⟩, harity, rfl⟩
    exact ⟨happlication, happlication⟩
  | @parens form us u vs rest tree hopen hclose _ ih =>
    rw [List.append_assoc, List.append_assoc] at hplain ⊢
    have hparts := List.forall_mem_append.1 hplain
    have hinner : Reader.formula Level.whole (u ++ (vs ++ rest)) = .ok tree (vs ++ rest) :=
      ih hparts.2
    have hbasic := (basicFormula_eq_ok_iff_of_opening hplain
      (opensWith_iff.2 ⟨form, us, _, hopen, rfl⟩)).2
      (Or.inl (parenthesised_eq_ok_iff.2 ⟨form, us, _, vs, hopen, hclose, rfl, hinner⟩))
    obtain ⟨t, us', rfl, hbare⟩ := hopen.exists_bare hparts.1
    exact ⟨hbasic, (operand_of_not_logical hbare.isLogical).trans hbasic⟩
  | @comparison lexeme label u v rest left right hleft hright =>
    rw [List.append_assoc, List.cons_append] at hplain ⊢
    have hbasic := basicFormula_of_comparison hleft hright hplain
    obtain ⟨t, us, rfl, hlogical⟩ := hleft.exists_head (List.forall_mem_append.1 hplain).1
    exact ⟨hbasic, (operand_of_not_logical hlogical).trans hbasic⟩

end LatexLogic
