import LatexLogic.Proofs.Grammar.Depth
import LatexLogic.Proofs.Grammar.Fault
import LatexLogic.Proofs.Rendering.ArgumentCount

/-!
# Origins of errors

Every text of every table is a formula or has an error; no text is too deep for its own length
(`Formula.exists_outcome`). The error of a wrong number of arguments has one origin: readers fail only
at tokens that are at fault (`faultIn_formula`), and the only fault of that kind is the one of a prefix
predicate or prefix function in front of arguments that are read but are not as many as it takes
(`FaultIn.exists_miscount`). Nothing is assumed of the table, which may give a meaning to parentheses
or commas too.
-/

set_option autoImplicit false

namespace LatexLogic

open Reader

/-! ## Tokens at fault -/

/-- One of the tokens is at fault, whatever stands before it. -/
def FaultIn (failure : Failure) (ts : List Token) : Prop :=
  ∃ pre post, ts = pre ++ post ∧ FaultAt failure post

/-- Nothing is asked of what readers take. -/
theorem passage_any : Passage (fun _ => True) fun _ => True where
  nil := trivial
  append _ _ := trivial
  opening _ := trivial
  comma _ := trivial
  known _ := trivial
  name _ := trivial
  term _ _ := trivial
  formula _ _ := trivial

/-- A formula fails at some token. -/
theorem faultIn_formula {failure : Failure} {ts rest : List Token} {m : Threshold}
    (h : Reader.formula m ts = .error failure rest) : FaultIn failure ts := by
  obtain ⟨pre, post, hts, -, hfault⟩ := failsAfter_formula passage_any (fun _ _ => trivial) h
  exact ⟨pre, post, hts, hfault⟩

/-! ## Wrong numbers of arguments -/

/-- A prefix operator among the tokens that stands in front of arguments which are read but are not as
many as it takes. -/
structure Miscount (ts : List Token) where
  before : List Token
  operator : Token
  after : List Token
  split : ts = before ++ operator :: after
  kind : ArgumentKind
  label : String
  arity : Nat
  applies : operator.Applies kind label arity
  args : List Tree
  rest : List Token
  reads : parenthesised (list kind.reader) after = .ok args rest
  length_ne : args.length ≠ arity

namespace Miscount

variable {ts : List Token}

/-- The error names the operator as written, the number of arguments that it takes and the number that
was written. -/
def error (m : Miscount ts) : FormulaError :=
  .ofCount m.operator.written m.arity m.args.length

/-- An operator in front of its arguments takes at least one. -/
theorem arity_pos (m : Miscount ts) : 0 < m.arity := by
  obtain ⟨_, positive, _, -, -⟩ | ⟨_, positive, -, -⟩ := m.applies.eq_known
  · exact positive
  · exact positive

end Miscount

/-- An application is refused if its arguments are not as many as the operator takes. -/
theorem Tree.applied_eq_error {symbol label : String} {arity : Nat} {args : List Tree}
    {error : FormulaError} (hsymbol : symbol.isEmpty = false)
    (h : applied symbol label arity args = .error error) :
    args.length ≠ arity ∧ error = .ofCount symbol arity args.length := by
  unfold applied at h
  split at h
  · cases h
  · next hne =>
    rw [hsymbol] at h
    cases h
    exact ⟨by exact_mod_cast hne, rfl⟩

/-- The only tokens whose fault is a wrong number of arguments are prefix operators. -/
theorem FaultIn.exists_miscount {error : FormulaError} {ts : List Token}
    (h : FaultIn (.fault error) ts) (hcount : error.isArgumentCount = true) :
    ∃ m : Miscount ts, error = m.error := by
  obtain ⟨pre, post, rfl, hfault⟩ := h
  cases hfault with
  | token hfault =>
    cases error with
    | wrongArgumentCount symbol expected actual => exact False.elim hfault
    | longArgumentCount symbol expected actual => exact False.elim hfault
    | _ => cases hcount
  | eigenvariable _ _ => cases hcount
  | @function lexeme label arity positive note us rest args _ hargs happly =>
    obtain ⟨hne, rfl⟩ := Tree.applied_eq_error (Lexeme.written_ne_empty lexeme) happly
    exact ⟨⟨pre, _, us, rfl, .basic, label, arity, .function, args, rest, hargs, hne⟩, rfl⟩
  | @predicate lexeme label arity positive us rest args _ hargs happly =>
    obtain ⟨hne, rfl⟩ := Tree.applied_eq_error (Lexeme.written_ne_empty lexeme) happly
    exact ⟨⟨pre, _, us, rfl, .full, label, arity, .predicate, args, rest, hargs, hne⟩, rfl⟩

/-! ## Outcomes of parsing -/

/-- A fault of a token is an error. -/
theorem FaultIn.exists_error {failure : Failure} {ts : List Token} (h : FaultIn failure ts) :
    ∃ error, failure = .fault error := by
  obtain ⟨-, post, -, hfault⟩ := h
  cases failure with
  | fault error => exact ⟨error, rfl⟩
  | tooDeep => exact absurd rfl hfault.ne_tooDeep

namespace Formula

variable {table : Table} {text : String}

/-- The checks on a tree do not count arguments. -/
theorem isArgumentCount_of_ofTree {isQuantifier : String → Bool} {raw : Tree} {error : FormulaError}
    (h : ofTree isQuantifier raw = .error error) : error.isArgumentCount = false := by
  unfold ofTree at h
  split at h
  · cases h
    rfl
  · split at h
    · cases h
      rfl
    · split at h
      · cases h
        rfl
      · split at h
        · cases h
          rfl
        · cases h

/-- With levels enough for all tokens, reading fails at one of them. -/
theorem faultIn_of_treeOfTokens {depth : Nat} {ts : List Token} {failure : Failure}
    (hdepth : ts.length < depth) (h : treeOfTokens depth ts = .error failure) :
    FaultIn failure ts := by
  unfold treeOfTokens at h
  rw [Level.ofDepth_eq_unlimited hdepth] at h
  split at h
  · next hread =>
    cases h
    exact faultIn_formula hread
  · next t _ _ =>
    cases h
    have htoken : IsTokenFault (.fault (.badToken t.written none)) := trivial
    exact ⟨[], ts, rfl, .token htoken⟩
  · cases h

/-- A text fails as a blank one, or at one of its tokens, or in the checks on its tree. -/
theorem origin_of_parse {failure : Failure} (h : parse table text = .error failure) :
    text.toList.all Text.isBlank = true ∧ failure = .fault .blank ∨
      FaultIn failure (tokenize table text) ∨
      ∃ raw error, Reader.formula Level.whole (tokenize table text) = .ok raw [] ∧
        ofTree table.isQuantifierLabel raw = .error error ∧ failure = .fault error := by
  have hlength := Nat.lt_succ_of_le (length_tokenize_le table text)
  cases hblank : text.toList.all Text.isBlank with
  | true =>
    simp only [parse, parseWithin, hblank, if_true] at h
    cases h
    exact Or.inl ⟨rfl, rfl⟩
  | false =>
    cases htree : treeOfTokens (text.length + 1) (tokenize table text) with
    | error failure' =>
      simp only [parse, parseWithin, hblank, htree, Bool.false_eq_true, if_false] at h
      cases h
      exact Or.inr (Or.inl (faultIn_of_treeOfTokens hlength htree))
    | ok raw =>
      -- The tokens make up a formula, so the checks on its tree decide.
      have hread := (treeOfTokens_eq_ok_iff hlength).1 htree
      rw [parse_of_formula hread] at h
      cases hchecks : ofTree table.isQuantifierLabel raw with
      | ok f =>
        rw [hchecks] at h
        cases h
      | error error =>
        rw [hchecks] at h
        cases h
        exact Or.inr (Or.inr ⟨raw, error, hread, hchecks, rfl⟩)

/-- Every text is a formula or has an error. -/
theorem exists_outcome (table : Table) (text : String) :
    (∃ f, parse table text = .ok f) ∨ ∃ error, parse table text = .error (.fault error) := by
  cases hparse : parse table text with
  | ok f => exact Or.inl ⟨f, rfl⟩
  | error failure =>
    right
    rcases origin_of_parse hparse with ⟨-, rfl⟩ | hfault | ⟨_, error, -, -, rfl⟩
    · exact ⟨_, rfl⟩
    · obtain ⟨error, rfl⟩ := hfault.exists_error
      exact ⟨error, rfl⟩
    · exact ⟨error, rfl⟩

/-- The error of a wrong number of arguments comes from a prefix operator of the text. -/
theorem exists_miscount_of_parse {error : FormulaError}
    (h : parse table text = .error (.fault error)) (hcount : error.isArgumentCount = true) :
    ∃ m : Miscount (tokenize table text), error = m.error := by
  rcases origin_of_parse h with ⟨-, hblank⟩ | hfault | ⟨raw, error', -, hchecks, heq⟩
  · cases hblank
    cases hcount
  · exact hfault.exists_miscount hcount
  · cases heq
    rw [isArgumentCount_of_ofTree hchecks] at hcount
    cases hcount

end Formula

end LatexLogic
