import LatexLogic.Formula.Parse
import LatexLogic.Proofs.Reading.Forward

/-!
# Readers without a limit of depth

`Level.ofDepth n` refuses to read beyond `n` levels of nesting. Every reader takes a token before it
uses the level below, so a list is never nested more deeply than it is long: more than that many
levels make no difference (`Level.ofDepth_eq_unlimited`). `Level.unlimited` gives every list as many
levels as it can use. It is its own level below, `Level.above_unlimited`, and so satisfies the plain
recursive equations of a recursive descent (`Reader.formula_eq` and the like), in which no depth
occurs. It is what `Formula.parse` reads with (`Formula.treeOfTokens_eq_ok_iff`).
-/

set_option autoImplicit false

namespace LatexLogic

namespace Level

open Reader

/-! ## Levels of readers that move forward -/

/-- All readers of a level move forward. -/
structure Forward (l : Level) : Prop where
  formula : ∀ m, (l.formula m).Forward
  term : ∀ m, (l.term m).Forward
  basicTerm : l.basicTerm.Forward

section Above

variable {below : Level}

theorem forward_application (symbol label : String) (arity : Nat) {argument : Reader Tree}
    (h : argument.Forward) : (application symbol label arity argument).Forward := by
  refine h.list.parenthesised.bind fun args => ?_
  cases Tree.applied symbol label arity args with
  | ok tree => exact forward_pure tree
  | error e => exact forward_fail e

theorem forward_basicTermAbove (h : below.Forward) : (basicTermAbove below).Forward := by
  refine forward_peek?.bind fun o => ?_
  cases o with
  | none => exact forward_fail _
  | some t =>
    dsimp only
    split
    · exact forward_next?.bind fun _ => forward_application _ _ _ h.basicTerm
    · refine forward_get.bind fun ts => ?_
      split
      · exact (h.term _).parenthesised
      · exact forward_variableName.bind fun _ => forward_pure _

theorem forward_termAbove (h : below.Forward) (m : Threshold) : (termAbove below m).Forward :=
  (forward_basicTermAbove h).bind fun first => forward_infixRest h.term first

theorem forward_infixPredicateAbove (h : below.Forward) : (infixPredicateAbove below).Forward := by
  refine (forward_termAbove h _).bind fun left => forward_next.bind fun t => ?_
  split
  · exact (forward_termAbove h _).bind fun right => forward_pure _
  · exact forward_fail _

theorem forward_formulaElseTerm {formula term : Reader Tree} (hformula : formula.Forward)
    (hterm : term.Forward) : (formulaElseTerm formula term).Forward := by
  intro ts
  have hts := hformula ts
  unfold formulaElseTerm
  cases h : formula ts with
  | ok tree rest =>
    rw [h] at hts
    exact hts
  | error failure rest =>
    rw [h] at hts
    cases hleaves : leavesTerm failure with
    | true => simpa only [hleaves, if_true] using hterm ts
    | false => simpa only [hleaves, Bool.false_eq_true, if_false] using hts

theorem forward_basicFormulaAbove (h : below.Forward) : (basicFormulaAbove below).Forward := by
  refine forward_peek?.bind fun o => ?_
  cases o with
  | none => exact forward_fail _
  | some t =>
    dsimp only
    split
    · exact forward_next?.bind fun _ => forward_metavariable _
    · exact forward_next?.bind fun _ => forward_pure _
    · exact forward_next?.bind fun _ => forward_application _ _ _ (h.term _)
    · refine forward_get.bind fun ts => ?_
      split
      · exact forward_formulaElseTerm (h.formula _).parenthesised (forward_infixPredicateAbove h)
      · exact forward_infixPredicateAbove h

theorem forward_quantified (h : below.Forward) (label : String) :
    (quantified below label).Forward := by
  refine forward_variableName.bind fun bound => ?_
  split
  · exact forward_fail _
  · exact (h.formula _).bind fun scope => forward_pure _

theorem forward_operandAbove (h : below.Forward) : (operandAbove below).Forward := by
  refine forward_peek?.bind fun o => ?_
  cases o with
  | none => exact forward_fail _
  | some t =>
    dsimp only
    split
    · exact forward_next?.bind fun _ => (h.formula _).bind fun _ => forward_pure _
    · exact forward_next?.bind fun _ => forward_quantified h _
    · exact forward_basicFormulaAbove h

theorem forward_formulaAbove (h : below.Forward) (m : Threshold) :
    (formulaAbove below m).Forward :=
  (forward_operandAbove h).bind fun first => forward_infixRest h.formula first

/-- The level above a level that moves forward moves forward too. -/
theorem forward_above (h : below.Forward) : (above below).Forward where
  formula := forward_formulaAbove h
  term := forward_termAbove h
  basicTerm := forward_basicTermAbove h

end Above

theorem forward_ofDepth : ∀ depth, (ofDepth depth).Forward
  | 0 => ⟨fun _ => forward_throw _, fun _ => forward_throw _, forward_throw _⟩
  | depth + 1 => forward_above (forward_ofDepth depth)

/-! ## Levels that agree -/

/-- Two levels read the same from lists of fewer than the given number of tokens. -/
structure AgreeBelow (n : Nat) (a b : Level) : Prop where
  formula : ∀ m (ts : List Token), ts.length < n → a.formula m ts = b.formula m ts
  term : ∀ m (ts : List Token), ts.length < n → a.term m ts = b.term m ts
  basicTerm : ∀ ts : List Token, ts.length < n → a.basicTerm ts = b.basicTerm ts

section Agree

variable {n : Nat} {a b : Level} {ts : List Token}

theorem application_congr (symbol label : String) (arity : Nat) {argument argument' : Reader Tree}
    (h : argument.Forward) (h' : argument'.Forward)
    (hargument : ∀ us : List Token, us.length < ts.length → argument us = argument' us) :
    application symbol label arity argument ts = application symbol label arity argument' ts := by
  refine bind_congr_at (parenthesised_congr fun us hus => ?_) fun _ _ _ => rfl
  exact list_congr h h' fun vs hvs => hargument vs (hvs.trans_lt hus)

theorem basicTermAbove_congr (ha : a.Forward) (hb : b.Forward) (h : AgreeBelow n a b)
    (hts : ts.length < n + 1) : basicTermAbove a ts = basicTermAbove b ts := by
  cases ts with
  | nil => rfl
  | cons t us =>
    simp only [List.length_cons] at hts
    simp only [basicTermAbove, peek?_bind, List.head?_cons]
    split
    · simp only [next?_bind_cons]
      exact application_congr _ _ _ ha.basicTerm hb.basicTerm fun vs hvs =>
        h.basicTerm vs (by omega)
    · simp only [get_bind]
      split
      · exact parenthesised_congr fun vs hvs => h.term _ vs (by simp at hvs; omega)
      · rfl

theorem termAbove_congr (ha : a.Forward) (hb : b.Forward) (h : AgreeBelow n a b) (m : Threshold)
    (hts : ts.length < n + 1) : termAbove a m ts = termAbove b m ts := by
  refine bind_congr_at (basicTermAbove_congr ha hb h hts) fun first mid hread => ?_
  have hle := ((forward_basicTermAbove ha).ok hread).length_le
  exact infixRest_congr ha.term (fun m us hus => h.term m us (by omega)) first

theorem infixPredicateAbove_congr (ha : a.Forward) (hb : b.Forward) (h : AgreeBelow n a b)
    (hts : ts.length < n + 1) : infixPredicateAbove a ts = infixPredicateAbove b ts := by
  refine bind_congr_at (termAbove_congr ha hb h _ hts) fun left mid hleft => ?_
  refine bind_congr_at rfl fun t rest hnext => ?_
  have hle := ((forward_termAbove ha _).ok hleft).length_le
  have hle' := (forward_next.ok hnext).length_le
  have hright : termAbove a whole rest = termAbove b whole rest :=
    termAbove_congr ha hb h _ (by omega)
  rcases t with ⟨lexeme, ⟨_, _⟩ | _ | ⟨label, _ | _⟩ | ⟨_, _⟩⟩ | _ | _ | _
  case known.predicate.infixOp => exact bind_congr_at hright fun _ _ _ => rfl
  all_goals rfl

theorem basicFormulaAbove_congr (ha : a.Forward) (hb : b.Forward) (h : AgreeBelow n a b)
    (hts : ts.length < n + 1) : basicFormulaAbove a ts = basicFormulaAbove b ts := by
  cases ts with
  | nil => rfl
  | cons t us =>
    simp only [basicFormulaAbove, peek?_bind, List.head?_cons]
    split
    · rfl
    · rfl
    · simp only [next?_bind_cons]
      refine application_congr _ _ _ (ha.term _) (hb.term _) fun vs hvs => h.term _ vs ?_
      simp only [List.length_cons] at hts
      omega
    · simp only [get_bind]
      split
      · unfold formulaElseTerm
        rw [infixPredicateAbove_congr ha hb h hts,
          parenthesised_congr fun vs hvs => h.formula _ vs (by omega)]
      · exact infixPredicateAbove_congr ha hb h hts

theorem operandAbove_congr (ha : a.Forward) (hb : b.Forward) (h : AgreeBelow n a b)
    (hts : ts.length < n + 1) : operandAbove a ts = operandAbove b ts := by
  cases ts with
  | nil => rfl
  | cons t us =>
    have hus : us.length < n := by simpa using hts
    simp only [operandAbove, peek?_bind, List.head?_cons]
    split
    · simp only [next?_bind_cons]
      exact bind_congr_at (h.formula _ us hus) fun _ _ _ => rfl
    · simp only [next?_bind_cons]
      refine bind_congr_at rfl fun bound mid hbound => ?_
      have hle := (forward_variableName.ok hbound).length_le
      cases heigen : isEigenvariable bound with
      | true => simp only [if_true]
      | false =>
        simp only [Bool.false_eq_true, if_false]
        exact bind_congr_at (h.formula _ mid (by omega)) fun _ _ _ => rfl
    · exact basicFormulaAbove_congr ha hb h hts

theorem formulaAbove_congr (ha : a.Forward) (hb : b.Forward) (h : AgreeBelow n a b)
    (m : Threshold) (hts : ts.length < n + 1) : formulaAbove a m ts = formulaAbove b m ts := by
  refine bind_congr_at (operandAbove_congr ha hb h hts) fun first mid hread => ?_
  have hle := ((forward_operandAbove ha).ok hread).length_le
  exact infixRest_congr ha.formula (fun m us hus => h.formula m us (by omega)) first

/-- Levels that agree on short lists stand below levels that agree on lists one longer: a token is
taken before the level below is used. -/
theorem AgreeBelow.above (ha : a.Forward) (hb : b.Forward) (h : AgreeBelow n a b) :
    AgreeBelow (n + 1) (above a) (above b) where
  formula m _ hts := formulaAbove_congr ha hb h m hts
  term m _ hts := termAbove_congr ha hb h m hts
  basicTerm _ hts := basicTermAbove_congr ha hb h hts

end Agree

/-- Lists of fewer than `n` tokens are read in the same way with all depths from `n` on. -/
theorem agreeBelow_ofDepth : ∀ {n depth : Nat}, n ≤ depth →
    AgreeBelow n (ofDepth n) (ofDepth depth)
  | 0, _, _ =>
    ⟨fun _ _ h => absurd h (Nat.not_lt_zero _), fun _ _ h => absurd h (Nat.not_lt_zero _),
      fun _ h => absurd h (Nat.not_lt_zero _)⟩
  | n + 1, 0, h => absurd h (Nat.not_succ_le_zero n)
  | n + 1, depth + 1, h =>
    (agreeBelow_ofDepth (Nat.le_of_succ_le_succ h)).above (forward_ofDepth n)
      (forward_ofDepth depth)

/-! ## The level without a limit -/

/-- The level that gives every list as many levels of nesting as it can use. -/
def unlimited : Level where
  formula m := fun ts => (ofDepth (ts.length + 1)).formula m ts
  term m := fun ts => (ofDepth (ts.length + 1)).term m ts
  basicTerm := fun ts => (ofDepth (ts.length + 1)).basicTerm ts

theorem forward_unlimited : unlimited.Forward where
  formula m ts := (forward_ofDepth (ts.length + 1)).formula m ts
  term m ts := (forward_ofDepth (ts.length + 1)).term m ts
  basicTerm ts := (forward_ofDepth (ts.length + 1)).basicTerm ts

theorem agreeBelow_unlimited (n : Nat) : AgreeBelow n unlimited (ofDepth n) where
  formula m ts hts := (agreeBelow_ofDepth hts).formula m ts (Nat.lt_succ_self _)
  term m ts hts := (agreeBelow_ofDepth hts).term m ts (Nat.lt_succ_self _)
  basicTerm ts hts := (agreeBelow_ofDepth hts).basicTerm ts (Nat.lt_succ_self _)

/-- Any depth beyond the number of tokens is as good as no limit. -/
theorem ofDepth_eq_unlimited {depth : Nat} {ts : List Token} (h : ts.length < depth)
    (m : Threshold) : (ofDepth depth).formula m ts = unlimited.formula m ts :=
  ((agreeBelow_unlimited depth).formula m ts h).symm

/-- The level without a limit is its own level below. -/
theorem above_unlimited : above unlimited = unlimited := by
  have h : ∀ ts : List Token, AgreeBelow (ts.length + 1) (above unlimited)
      (ofDepth (ts.length + 1)) := fun ts =>
    (agreeBelow_unlimited ts.length).above forward_unlimited (forward_ofDepth ts.length)
  have hformula : (above unlimited).formula = unlimited.formula := by
    funext m ts
    exact (h ts).formula m ts (Nat.lt_succ_self _)
  have hterm : (above unlimited).term = unlimited.term := by
    funext m ts
    exact (h ts).term m ts (Nat.lt_succ_self _)
  have hbasicTerm : (above unlimited).basicTerm = unlimited.basicTerm := by
    funext ts
    exact (h ts).basicTerm ts (Nat.lt_succ_self _)
  calc above unlimited
      = ⟨(above unlimited).formula, (above unlimited).term, (above unlimited).basicTerm⟩ := rfl
    _ = unlimited := by rw [hformula, hterm, hbasicTerm]

end Level

namespace Reader

/-! ## The readers of formulas and terms -/

/-- Reads a formula up to a threshold. -/
def formula (m : Threshold) : Reader Tree := Level.unlimited.formula m

/-- Reads the first operand of a formula. -/
def operand : Reader Tree := Level.operandAbove Level.unlimited

/-- Reads a formula without connectives outside parentheses. -/
def basicFormula : Reader Tree := Level.basicFormulaAbove Level.unlimited

/-- Reads two terms with an infix predicate between them. -/
def infixPredicate : Reader Tree := Level.infixPredicateAbove Level.unlimited

/-- Reads a term up to a threshold. -/
def term (m : Threshold) : Reader Tree := Level.unlimited.term m

/-- Reads a term without infix functions outside parentheses. -/
def basicTerm : Reader Tree := Level.unlimited.basicTerm

theorem forward_formula (m : Threshold) : (formula m).Forward := Level.forward_unlimited.formula m

theorem forward_operand : operand.Forward := Level.forward_operandAbove Level.forward_unlimited

theorem forward_term (m : Threshold) : (term m).Forward := Level.forward_unlimited.term m

theorem forward_basicTerm : basicTerm.Forward := Level.forward_unlimited.basicTerm

/-- A formula is an operand and the run of connectives after it. -/
theorem formula_eq (m : Threshold) :
    formula m = operand >>= fun first => infixRest Token.infixConnective? formula m first :=
  (congrArg (fun l => Level.formula l m) Level.above_unlimited).symm

theorem basicTerm_eq : basicTerm = Level.basicTermAbove Level.unlimited :=
  (congrArg Level.basicTerm Level.above_unlimited).symm

theorem termAbove_unlimited (m : Threshold) : Level.termAbove Level.unlimited m = term m :=
  congrArg (fun l => Level.term l m) Level.above_unlimited

/-- A term is a basic term and the run of functions after it. -/
theorem term_eq (m : Threshold) :
    term m = basicTerm >>= fun first => infixRest Token.infixFunction? term m first := by
  rw [← termAbove_unlimited, basicTerm_eq]
  rfl

/-- An infix predicate stands between two terms. -/
theorem infixPredicate_eq :
    infixPredicate = term Level.whole >>= fun left => next >>= fun t =>
      match t with
      | .known _ (.predicate label .infixOp) =>
        term Level.whole >>= fun right => pure (.node label [left, right])
      | _ => fail (.badToken t.written none) := by
  rw [infixPredicate, ← termAbove_unlimited]
  rfl

/-! ## Operands -/

/-- A prefix connective or a quantifier is the next token. -/
def OperatorNext (ts : List Token) : Prop :=
  (∃ lexeme label precedence note us,
    ts = .known lexeme (.connective label (.prefixOp precedence note)) :: us) ∨
  ∃ lexeme label us, ts = .known lexeme (.quantifier label) :: us

/-- An operand at a token that is no operator is a basic formula. -/
theorem operand_eq_basicFormula {ts : List Token} (h : ¬ OperatorNext ts) :
    operand ts = basicFormula ts := by
  cases ts with
  | nil => rfl
  | cons t us =>
    rcases t with ⟨l, ⟨label, ⟨_, _⟩ | ⟨p, note⟩ | ⟨_, _⟩⟩ | label | ⟨_, _⟩ | ⟨_, _⟩⟩ | _ | _ | _
    case known.connective.prefixOp => exact absurd (Or.inl ⟨l, label, p, note, us, rfl⟩) h
    case known.quantifier => exact absurd (Or.inr ⟨l, label, us, rfl⟩) h
    all_goals rfl

/-- The operand that starts with a prefix connective. -/
theorem operand_before {lexeme : Lexeme} {label : String} {precedence : Int} {note : Data}
    (ts : List Token) :
    operand (.known lexeme (.connective label (.prefixOp precedence note)) :: ts) =
      (formula (.power (Construct.connectivePowers (.prefixOp precedence note)).2) >>=
        fun argument => pure (.node label [argument])) ts :=
  rfl

/-- The operand that starts with a quantifier. -/
theorem operand_quantified {lexeme : Lexeme} {label : String} (ts : List Token) :
    operand (.known lexeme (.quantifier label) :: ts) =
      (variableName >>= fun bound =>
        if isEigenvariable bound then fail (.boundEigenvariable bound)
        else formula .unreachable >>= fun scope => pure (.node label [.atom bound, scope])) ts :=
  rfl

theorem operand_before_of_eq_ok {lexeme : Lexeme} {label : String} {precedence : Int} {note : Data}
    {ts rest : List Token} {argument : Tree}
    (h : formula (.power (Construct.connectivePowers (.prefixOp precedence note)).2) ts =
      .ok argument rest) :
    operand (.known lexeme (.connective label (.prefixOp precedence note)) :: ts) =
      .ok (.node label [argument]) rest := by
  rw [operand_before, bind_of_eq_ok h]
  rfl

theorem operand_quantified_of_eq_ok {lexeme : Lexeme} {label bound : String}
    {ts mid rest : List Token} {scope : Tree} (hbound : variableName ts = .ok bound mid)
    (heigen : isEigenvariable bound = false) (h : formula .unreachable mid = .ok scope rest) :
    operand (.known lexeme (.quantifier label) :: ts) =
      .ok (.node label [.atom bound, scope]) rest := by
  rw [operand_quantified, bind_of_eq_ok hbound]
  simp only [heigen, Bool.false_eq_true, if_false]
  rw [bind_of_eq_ok h]
  rfl

end Reader

/-- Reading one formula that uses up all tokens, with enough depth for them. -/
theorem Formula.treeOfTokens_eq_ok_iff {depth : Nat} {ts : List Token} (h : ts.length < depth)
    {tree : Tree} :
    Formula.treeOfTokens depth ts = .ok tree ↔ Reader.formula Level.whole ts = .ok tree [] := by
  unfold Formula.treeOfTokens
  rw [Level.ofDepth_eq_unlimited h]
  show _ ↔ Level.unlimited.formula Level.whole ts = _
  cases Level.unlimited.formula Level.whole ts with
  | error failure rest => simp
  | ok tree rest => cases rest <;> simp

/-- A text is parsed if it is not blank, its tokens make up one tree that is not too deep, and the
tree passes the checks. -/
theorem Formula.parse_eq_ok_iff {table : Table} {text : String} {f : Formula} :
    Formula.parse table text = .ok f ↔
      text.toList.all Text.isBlank = false ∧ ∃ raw,
        Formula.treeOfTokens (text.length + 1) (tokenize table text) = .ok raw ∧
        raw.depth ≤ text.length + 1 ∧ Formula.ofTree table.isQuantifierLabel raw = .ok f := by
  unfold Formula.parse Formula.parseWithin
  cases text.toList.all Text.isBlank with
  | true => simp
  | false =>
    cases Formula.treeOfTokens (text.length + 1) (tokenize table text) with
    | error failure => simp
    | ok raw =>
      by_cases hdepth : text.length + 1 < raw.depth
      · simp [hdepth, Nat.not_le.2 hdepth]
      · cases hchecks : Formula.ofTree table.isQuantifierLabel raw with
        | error error => simp [hdepth, hchecks]
        | ok formula => simp [hdepth, hchecks, Nat.not_lt.1 hdepth]

end LatexLogic
