import LatexLogic.Proofs.Reading.Name
import LatexLogic.Proofs.Reading.Unlimited

/-!
# Derivations of terms and formulas

A grammar for what the readers accept. A derivation says that the tokens `u`, followed by the tokens
`rest`, make up a phrase with a certain tree; what follows is only looked at. The rules are those of
the readers with one exception: where a parenthesis stands first, a derivation may take the
parenthesis as one around a formula or as one around a term, whatever the other choice would give.

Every success of a reader has a derivation (`TermDerivation.of_term`, `FormulaDerivation.of_formula`
and the like), for all tables. So what holds of all derivations holds of everything that is read.
-/

set_option autoImplicit false

namespace LatexLogic

open Reader

/-! ## Terms -/

/-- What is expected of an argument: a term, or one without infix functions outside parentheses. -/
inductive ArgumentKind where
  | full
  | basic
  deriving DecidableEq, Repr

/-- The parts of terms. -/
inductive TermPhrase where
  | term (m : Threshold)
  /-- What follows the left part of a run of functions. -/
  | more (m : Threshold) (left : Tree)
  | basic
  /-- Arguments of an operator with a label, after some that were read before. -/
  | arguments (kind : ArgumentKind) (label : String) (done : List Tree)

/-- The phrase of one argument. -/
def ArgumentKind.phrase : ArgumentKind → TermPhrase
  | full => .term Level.whole
  | basic => .basic

/-- The reader of one argument. -/
def ArgumentKind.reader : ArgumentKind → Reader Tree
  | full => term Level.whole
  | basic => basicTerm

/-- The given tokens make up a phrase of a term in front of the remaining ones. -/
inductive TermDerivation : TermPhrase → List Token → Tree → List Token → Prop where
  | term {m : Threshold} {u v rest : List Token} {first tree : Tree} :
      TermDerivation .basic u first (v ++ rest) → TermDerivation (.more m first) v tree rest →
      TermDerivation (.term m) (u ++ v) tree rest
  | stop {m : Threshold} {rest : List Token} {tree : Tree} :
      continuing? Token.infixFunction? m rest = none →
      TermDerivation (.more m tree) [] tree rest
  | step {m : Threshold} {t : Token} {op : InfixOperator} {u v rest : List Token}
      {left right tree : Tree} :
      t.infixFunction? = some op → m.admits op.leftPower = true →
      TermDerivation (.term (.power op.rightPower)) u right (v ++ rest) →
      TermDerivation (.more m (.node op.label [left, right])) v tree rest →
      TermDerivation (.more m left) (t :: (u ++ v)) tree rest
  | name {u rest : List Token} {name : String} :
      VariableSpelled (u ++ rest) name rest → TermDerivation .basic u (.atom name) rest
  | parens {form : Form} {us u vs rest : List Token} {tree : Tree} :
      Opening form us → Closing form vs →
      TermDerivation (.term Level.whole) u tree (vs ++ rest) →
      TermDerivation .basic (us ++ (u ++ vs)) tree rest
  | application {lexeme : Lexeme} {label : String} {arity : Nat} {positive : 0 < arity}
      {note : Option Int} {form : Form} {us u vs rest : List Token} {args : List Tree} :
      Opening form us → Closing form vs →
      TermDerivation (.arguments .basic label []) u (.node label args) (vs ++ rest) →
      args.length = arity →
      TermDerivation .basic
        (.known lexeme (.function label (.prefixOp arity positive note)) :: (us ++ (u ++ vs)))
        (.node label args) rest
  | last {kind : ArgumentKind} {label : String} {done : List Tree} {u rest : List Token}
      {arg : Tree} :
      TermDerivation kind.phrase u arg rest → nextIs "," rest = false →
      TermDerivation (.arguments kind label done) u (.node label (done ++ [arg])) rest
  | comma {kind : ArgumentKind} {label : String} {done : List Tree} {t : Token}
      {u v rest : List Token} {arg tree : Tree} :
      TermDerivation kind.phrase u arg (t :: (v ++ rest)) → t.written = "," →
      TermDerivation (.arguments kind label (done ++ [arg])) v tree rest →
      TermDerivation (.arguments kind label done) (u ++ t :: v) tree rest

/-! ## Formulas -/

/-- The parts of formulas. -/
inductive FormulaPhrase where
  | formula (m : Threshold)
  /-- What follows the left part of a run of connectives. -/
  | more (m : Threshold) (left : Tree)
  | operand
  | basic

/-- The given tokens make up a phrase of a formula in front of the remaining ones. -/
inductive FormulaDerivation : FormulaPhrase → List Token → Tree → List Token → Prop where
  | formula {m : Threshold} {u v rest : List Token} {first tree : Tree} :
      FormulaDerivation .operand u first (v ++ rest) →
      FormulaDerivation (.more m first) v tree rest →
      FormulaDerivation (.formula m) (u ++ v) tree rest
  | stop {m : Threshold} {rest : List Token} {tree : Tree} :
      continuing? Token.infixConnective? m rest = none →
      FormulaDerivation (.more m tree) [] tree rest
  | step {m : Threshold} {t : Token} {op : InfixOperator} {u v rest : List Token}
      {left right tree : Tree} :
      t.infixConnective? = some op → m.admits op.leftPower = true →
      FormulaDerivation (.formula (.power op.rightPower)) u right (v ++ rest) →
      FormulaDerivation (.more m (.node op.label [left, right])) v tree rest →
      FormulaDerivation (.more m left) (t :: (u ++ v)) tree rest
  | before {lexeme : Lexeme} {label : String} {precedence : Int} {note : Data}
      {u rest : List Token} {argument : Tree} :
      FormulaDerivation
        (.formula (.power (Construct.connectivePowers (.prefixOp precedence note)).2))
        u argument rest →
      FormulaDerivation .operand
        (.known lexeme (.connective label (.prefixOp precedence note)) :: u)
        (.node label [argument]) rest
  | quantified {lexeme : Lexeme} {label bound : String} {u v rest : List Token} {scope : Tree} :
      VariableSpelled (u ++ (v ++ rest)) bound (v ++ rest) → isEigenvariable bound = false →
      FormulaDerivation (.formula .unreachable) v scope rest →
      FormulaDerivation .operand (.known lexeme (.quantifier label) :: (u ++ v))
        (.node label [.atom bound, scope]) rest
  | basicOperand {u rest : List Token} {tree : Tree} :
      FormulaDerivation .basic u tree rest → FormulaDerivation .operand u tree rest
  | metavariable {letter : MetaLetter} {u rest : List Token} {tree : Tree} :
      Reader.metavariable letter (u ++ rest) = .ok tree rest →
      FormulaDerivation .basic (.metavariable letter :: u) tree rest
  | constant {lexeme : Lexeme} {label : String} {precedence : Option Int} {note : Data}
      {rest : List Token} :
      FormulaDerivation .basic [.known lexeme (.connective label (.nullary precedence note))]
        (.atom label) rest
  | predicate {lexeme : Lexeme} {label : String} {arity : Nat} {positive : 0 < arity}
      {form : Form} {us u vs rest : List Token} {args : List Tree} :
      Opening form us → Closing form vs →
      TermDerivation (.arguments .full label []) u (.node label args) (vs ++ rest) →
      args.length = arity →
      FormulaDerivation .basic
        (.known lexeme (.predicate label (.prefixOp arity positive)) :: (us ++ (u ++ vs)))
        (.node label args) rest
  | parens {form : Form} {us u vs rest : List Token} {tree : Tree} :
      Opening form us → Closing form vs →
      FormulaDerivation (.formula Level.whole) u tree (vs ++ rest) →
      FormulaDerivation .basic (us ++ (u ++ vs)) tree rest
  | comparison {lexeme : Lexeme} {label : String} {u v rest : List Token} {left right : Tree} :
      TermDerivation (.term Level.whole) u left
        (.known lexeme (.predicate label .infixOp) :: (v ++ rest)) →
      TermDerivation (.term Level.whole) v right rest →
      FormulaDerivation .basic (u ++ .known lexeme (.predicate label .infixOp) :: v)
        (.node label [left, right]) rest

/-! ## Successes of readers have derivations -/

/-- A variable that is read takes tokens off the front. -/
theorem exists_of_variableName {ts rest : List Token} {name : String}
    (h : variableName ts = .ok name rest) :
    ∃ u, ts = u ++ rest ∧ VariableSpelled (u ++ rest) name rest := by
  obtain ⟨u, rfl⟩ := forward_variableName.ok h
  exact ⟨u, rfl, variableName_eq_ok_iff.1 h⟩

namespace TermDerivation

/-- A list of arguments that is read has a derivation if every argument has. -/
theorem of_list (kind : ArgumentKind) {n : Nat} (hforward : kind.reader.Forward)
    (ih : ∀ ts : List Token, ts.length ≤ n → ∀ (tree : Tree) (rest : List Token),
      kind.reader ts = .ok tree rest → ∃ u, ts = u ++ rest ∧ TermDerivation kind.phrase u tree rest)
    {label : String} {ts rest : List Token} {args : List Tree} (hts : ts.length ≤ n)
    (hread : list kind.reader ts = .ok args rest) : ∀ done, ∃ u, ts = u ++ rest ∧
      TermDerivation (.arguments kind label done) u (.node label (done ++ args)) rest := by
  refine list_induction hforward (R := fun ts args rest => ∀ done, ∃ u, ts = u ++ rest ∧
    TermDerivation (.arguments kind label done) u (.node label (done ++ args)) rest)
    ?last ?comma hts hread
  case last =>
    intro ts arg mid hts hitem hmid done
    obtain ⟨u, rfl, harg⟩ := ih ts hts arg mid hitem
    exact ⟨u, rfl, .last harg hmid⟩
  case comma =>
    intro ts arg t us args rest hts hitem ht hrest done
    obtain ⟨u, rfl, harg⟩ := ih ts hts arg _ hitem
    obtain ⟨v, rfl, hargs⟩ := hrest (done ++ [arg])
    refine ⟨u ++ t :: v, by simp, .comma harg ht ?_⟩
    simpa using hargs

/-- An application that is read has a derivation of its arguments. -/
theorem of_application (kind : ArgumentKind) {n : Nat} (hforward : kind.reader.Forward)
    (ih : ∀ ts : List Token, ts.length ≤ n → ∀ (tree : Tree) (rest : List Token),
      kind.reader ts = .ok tree rest → ∃ u, ts = u ++ rest ∧ TermDerivation kind.phrase u tree rest)
    {symbol label : String} {arity : Nat} {ts rest : List Token} {tree : Tree}
    (hts : ts.length ≤ n)
    (hread : Level.application symbol label arity kind.reader ts = .ok tree rest) :
    ∃ form us u vs args, Opening form us ∧ Closing form vs ∧ ts = us ++ (u ++ (vs ++ rest)) ∧
      TermDerivation (.arguments kind label []) u (.node label args) (vs ++ rest) ∧
      args.length = arity ∧ tree = .node label args := by
  obtain ⟨args, hargs, harity, rfl⟩ := application_eq_ok_iff.1 hread
  obtain ⟨form, us, inside, vs, hopen, hclose, rfl, hinside⟩ := parenthesised_eq_ok_iff.1 hargs
  rw [List.length_append] at hts
  have hinsideLength : inside.length ≤ n := by omega
  obtain ⟨u, rfl, hderivation⟩ := of_list kind hforward ih hinsideLength hinside []
  exact ⟨form, us, u, vs, args, hopen, hclose, rfl, hderivation, harity, rfl⟩

/-- A basic term that is read has a derivation if shorter terms have. -/
theorem of_basicTerm_of_shorter {ts : List Token}
    (ih : ∀ us : List Token, us.length < ts.length →
      (∀ (tree : Tree) (rest : List Token), basicTerm us = .ok tree rest →
        ∃ u, us = u ++ rest ∧ TermDerivation .basic u tree rest) ∧
      ∀ (m : Threshold) (tree : Tree) (rest : List Token), Reader.term m us = .ok tree rest →
        ∃ u, us = u ++ rest ∧ TermDerivation (.term m) u tree rest)
    {tree : Tree} {rest : List Token} (h : basicTerm ts = .ok tree rest) :
    ∃ u, ts = u ++ rest ∧ TermDerivation .basic u tree rest := by
  rw [basicTerm_eq] at h
  cases ts with
  | nil => simp [Level.basicTermAbove] at h
  | cons t us =>
    simp only [Level.basicTermAbove, peek?_bind, List.head?_cons] at h
    split at h
    · next lexeme label arity positive note =>
      simp only [next?_bind_cons] at h
      obtain ⟨form, ws, u, vs, args, hopen, hclose, rfl, hargs, harity, rfl⟩ :=
        of_application .basic (n := us.length) forward_basicTerm
          (fun vs hvs => (ih vs (Nat.lt_succ_of_le hvs)).1) le_rfl h
      exact ⟨.known lexeme (.function label (.prefixOp arity positive note)) ::
        (ws ++ (u ++ vs)), by simp, .application hopen hclose hargs harity⟩
    · simp only [get_bind] at h
      split at h
      · obtain ⟨form, ws, inside, vs, hopen, hclose, hts, hinner⟩ := parenthesised_eq_ok_iff.1 h
        have hpos := List.length_pos_iff.2 hopen.ne_nil
        have hshorter : inside.length < (t :: us).length := by
          rw [hts, List.length_append]
          omega
        obtain ⟨u, rfl, hterm⟩ := (ih inside hshorter).2 Level.whole tree (vs ++ rest) hinner
        exact ⟨ws ++ (u ++ vs), by simp [hts], .parens hopen hclose hterm⟩
      · simp only [bind_eq_ok_iff, pure_eq_ok_iff] at h
        obtain ⟨name, mid, hname, rfl, rfl⟩ := h
        obtain ⟨u, hu, hspelled⟩ := exists_of_variableName hname
        exact ⟨u, hu, .name hspelled⟩

/-- Terms that are read have derivations, and so have basic terms. The induction is on the number of
tokens. -/
theorem of_basicTerm_and_term (ts : List Token) :
    (∀ (tree : Tree) (rest : List Token), basicTerm ts = .ok tree rest →
      ∃ u, ts = u ++ rest ∧ TermDerivation .basic u tree rest) ∧
    ∀ (m : Threshold) (tree : Tree) (rest : List Token), Reader.term m ts = .ok tree rest →
      ∃ u, ts = u ++ rest ∧ TermDerivation (.term m) u tree rest := by
  induction hlength : ts.length using Nat.strong_induction_on generalizing ts with
  | _ n ihn =>
    subst hlength
    have ih := fun (us : List Token) (hus : us.length < ts.length) => ihn us.length hus us rfl
    refine ⟨fun tree rest hread => of_basicTerm_of_shorter ih hread, fun m tree rest hread => ?_⟩
    rw [term_eq, bind_eq_ok_iff] at hread
    obtain ⟨first, mid, hfirst, hrun⟩ := hread
    have hle := (forward_basicTerm.ok hfirst).length_le
    obtain ⟨u, hts, hu⟩ := of_basicTerm_of_shorter ih hfirst
    -- The operators of a run are added from the last one on, each with its right argument.
    have hmore : ∃ v, mid = v ++ rest ∧ TermDerivation (.more m first) v tree rest := by
      refine infixRest_induction forward_term (n := ts.length) (R := fun left ts tree rest =>
        ∃ v, ts = v ++ rest ∧ TermDerivation (.more m left) v tree rest)
        ?stop ?step hle hrun
      case stop =>
        intro ts tree hop
        exact ⟨[], rfl, .stop hop⟩
      case step =>
        intro t us op left right mid tree rest hus hop hright hrest
        obtain ⟨v, rfl, hv⟩ := hrest
        obtain ⟨u, rfl, hu⟩ := (ih us hus).2 _ right _ hright
        rw [continuing?_cons, Option.filter_eq_some_iff] at hop
        exact ⟨t :: (u ++ v), by simp, .step hop.1 hop.2 hu hv⟩
    obtain ⟨v, rfl, hv⟩ := hmore
    exact ⟨u ++ v, by rw [hts, List.append_assoc], .term hu hv⟩

theorem of_basicTerm {ts rest : List Token} {tree : Tree} (h : basicTerm ts = .ok tree rest) :
    ∃ u, ts = u ++ rest ∧ TermDerivation .basic u tree rest :=
  (of_basicTerm_and_term ts).1 tree rest h

theorem of_term {m : Threshold} {ts rest : List Token} {tree : Tree}
    (h : Reader.term m ts = .ok tree rest) :
    ∃ u, ts = u ++ rest ∧ TermDerivation (.term m) u tree rest :=
  (of_basicTerm_and_term ts).2 m tree rest h

theorem of_reader {kind : ArgumentKind} {ts rest : List Token} {tree : Tree}
    (h : kind.reader ts = .ok tree rest) :
    ∃ u, ts = u ++ rest ∧ TermDerivation kind.phrase u tree rest := by
  cases kind with
  | full => exact of_term h
  | basic => exact of_basicTerm h

end TermDerivation

namespace FormulaDerivation

/-- An infix predicate that is read has a derivation. -/
theorem of_infixPredicate {ts rest : List Token} {tree : Tree}
    (h : infixPredicate ts = .ok tree rest) :
    ∃ u, ts = u ++ rest ∧ FormulaDerivation .basic u tree rest := by
  rw [infixPredicate_eq, bind_eq_ok_iff] at h
  obtain ⟨left, mid, hleft, h⟩ := h
  rw [bind_eq_ok_iff] at h
  obtain ⟨t, mid, hnext, h⟩ := h
  obtain rfl := next_eq_ok_iff.1 hnext
  rcases t with ⟨lexeme, ⟨_, _⟩ | _ | ⟨label, _ | _⟩ | ⟨_, _⟩⟩ | _ | _ | _
  case known.predicate.infixOp =>
    simp only [bind_eq_ok_iff, pure_eq_ok_iff] at h
    obtain ⟨right, _, hright, rfl, rfl⟩ := h
    obtain ⟨v, rfl, hv⟩ := TermDerivation.of_term hright
    obtain ⟨u, rfl, hu⟩ := TermDerivation.of_term hleft
    exact ⟨u ++ .known lexeme (.predicate label .infixOp) :: v, by simp, .comparison hu hv⟩
  all_goals exact absurd h fail_ne_ok

/-- A prefix predicate that is read has a derivation. -/
theorem of_predicate {lexeme : Lexeme} {label symbol : String} {arity : Nat} {positive : 0 < arity}
    {ts rest : List Token} {tree : Tree}
    (h : Level.application symbol label arity (Level.unlimited.term Level.whole) ts =
      .ok tree rest) :
    ∃ u, .known lexeme (.predicate label (.prefixOp arity positive)) :: ts = u ++ rest ∧
      FormulaDerivation .basic u tree rest := by
  obtain ⟨form, us, u, vs, args, hopen, hclose, rfl, hargs, harity, rfl⟩ :=
    TermDerivation.of_application .full (forward_term _) (fun _ _ _ _ h => TermDerivation.of_term h)
      le_rfl h
  exact ⟨.known lexeme (.predicate label (.prefixOp arity positive)) :: (us ++ (u ++ vs)), by simp,
    .predicate hopen hclose hargs harity⟩

section Shorter

variable {ts : List Token}
  (ih : ∀ us : List Token, us.length < ts.length → ∀ (m : Threshold) (tree : Tree)
    (rest : List Token), Reader.formula m us = .ok tree rest →
    ∃ u, us = u ++ rest ∧ FormulaDerivation (.formula m) u tree rest)

include ih

/-- A formula in parentheses that is read has a derivation if shorter formulas have. -/
theorem of_parenthesised {tree : Tree} {rest : List Token}
    (h : parenthesised (Reader.formula Level.whole) ts = .ok tree rest) :
    ∃ u, ts = u ++ rest ∧ FormulaDerivation .basic u tree rest := by
  obtain ⟨form, us, inside, vs, hopen, hclose, rfl, hinner⟩ := parenthesised_eq_ok_iff.1 h
  have hpos := List.length_pos_iff.2 hopen.ne_nil
  obtain ⟨u, rfl, hu⟩ := ih inside (by rw [List.length_append]; omega) _ _ _ hinner
  exact ⟨us ++ (u ++ vs), by simp, .parens hopen hclose hu⟩

/-- A basic formula that is read has a derivation if shorter formulas have. -/
theorem of_basicFormula_of_shorter {tree : Tree} {rest : List Token}
    (h : basicFormula ts = .ok tree rest) :
    ∃ u, ts = u ++ rest ∧ FormulaDerivation .basic u tree rest := by
  cases ts with
  | nil => exact absurd h fail_ne_ok
  | cons t us =>
    simp only [basicFormula, Level.basicFormulaAbove, peek?_bind, List.head?_cons] at h
    split at h
    · next letter =>
      simp only [next?_bind_cons] at h
      obtain ⟨u, rfl⟩ := (forward_metavariable letter).ok h
      exact ⟨.metavariable letter :: u, rfl, .metavariable h⟩
    · next lexeme label precedence note =>
      simp only [next?_bind_cons, pure_eq_ok_iff] at h
      obtain ⟨rfl, rfl⟩ := h
      exact ⟨[.known lexeme (.connective label (.nullary precedence note))], rfl, .constant⟩
    · simp only [next?_bind_cons] at h
      exact of_predicate h
    · simp only [get_bind] at h
      split at h
      · unfold Level.formulaElseTerm at h
        split at h
        · -- Whichever way the parenthesis was taken, the derivation takes it that way too.
          next tree' rest' hformula =>
          obtain ⟨rfl, rfl⟩ : tree' = tree ∧ rest' = rest := by simpa using h
          exact of_parenthesised ih hformula
        · split at h
          · exact of_infixPredicate h
          · cases h
      · exact of_infixPredicate h

/-- An operand that is read has a derivation if shorter formulas have. -/
theorem of_operand_of_shorter {tree : Tree} {rest : List Token}
    (h : Reader.operand ts = .ok tree rest) :
    ∃ u, ts = u ++ rest ∧ FormulaDerivation .operand u tree rest := by
  cases ts with
  | nil => exact absurd h fail_ne_ok
  | cons t us =>
    simp only [Reader.operand, Level.operandAbove, peek?_bind, List.head?_cons] at h
    split at h
    · next lexeme label precedence note =>
      simp only [next?_bind_cons, bind_eq_ok_iff, pure_eq_ok_iff] at h
      obtain ⟨argument, mid, hargument, rfl, rfl⟩ := h
      obtain ⟨u, rfl, hu⟩ := ih us (by simp) _ _ _ hargument
      exact ⟨.known lexeme (.connective label (.prefixOp precedence note)) :: u, rfl, .before hu⟩
    · next lexeme label =>
      simp only [next?_bind_cons, Level.quantified] at h
      rw [bind_eq_ok_iff] at h
      obtain ⟨bound, mid, hbound, h⟩ := h
      cases heigen : isEigenvariable bound with
      | true => simp [heigen] at h
      | false =>
        simp only [heigen, Bool.false_eq_true, if_false, bind_eq_ok_iff, pure_eq_ok_iff] at h
        obtain ⟨scope, _, hscope, rfl, rfl⟩ := h
        have hle := (forward_variableName.ok hbound).length_le
        obtain ⟨v, rfl, hv⟩ := ih mid (by rw [List.length_cons]; omega) _ _ _ hscope
        obtain ⟨u, rfl, hu⟩ := exists_of_variableName hbound
        exact ⟨.known lexeme (.quantifier label) :: (u ++ v), by simp, .quantified hu heigen hv⟩
    · obtain ⟨u, hu, hbasic⟩ := of_basicFormula_of_shorter ih h
      exact ⟨u, hu, .basicOperand hbasic⟩

end Shorter

/-- Formulas that are read have derivations. The induction is on the number of tokens. -/
theorem of_formula {m : Threshold} {ts rest : List Token} {tree : Tree}
    (h : Reader.formula m ts = .ok tree rest) :
    ∃ u, ts = u ++ rest ∧ FormulaDerivation (.formula m) u tree rest := by
  induction hlength : ts.length using Nat.strong_induction_on generalizing m ts tree rest with
  | _ n ihn =>
    subst hlength
    have ih : ∀ us : List Token, us.length < ts.length → ∀ (m : Threshold) (tree : Tree)
        (rest : List Token), Reader.formula m us = .ok tree rest →
        ∃ u, us = u ++ rest ∧ FormulaDerivation (.formula m) u tree rest :=
      fun us hus m tree rest h => ihn us.length hus h rfl
    rw [formula_eq, bind_eq_ok_iff] at h
    obtain ⟨first, mid, hfirst, hrun⟩ := h
    have hle := (forward_operand.ok hfirst).length_le
    obtain ⟨u, hts, hu⟩ := of_operand_of_shorter ih hfirst
    have hmore : ∃ v, mid = v ++ rest ∧ FormulaDerivation (.more m first) v tree rest := by
      refine infixRest_induction forward_formula (n := ts.length) (R := fun left ts tree rest =>
        ∃ v, ts = v ++ rest ∧ FormulaDerivation (.more m left) v tree rest)
        ?stop ?step hle hrun
      case stop =>
        intro ts tree hop
        exact ⟨[], rfl, .stop hop⟩
      case step =>
        intro t us op left right mid tree rest hus hop hright hrest
        obtain ⟨v, rfl, hv⟩ := hrest
        obtain ⟨u, rfl, hu⟩ := ih us hus _ right _ hright
        rw [continuing?_cons, Option.filter_eq_some_iff] at hop
        exact ⟨t :: (u ++ v), by simp, .step hop.1 hop.2 hu hv⟩
    obtain ⟨v, rfl, hv⟩ := hmore
    exact ⟨u ++ v, by rw [hts, List.append_assoc], .formula hu hv⟩

theorem of_operand {ts rest : List Token} {tree : Tree} (h : Reader.operand ts = .ok tree rest) :
    ∃ u, ts = u ++ rest ∧ FormulaDerivation .operand u tree rest :=
  of_operand_of_shorter (fun _ _ _ _ _ h => of_formula h) h

end FormulaDerivation

end LatexLogic
