import LatexLogic.Proofs.Grammar.Depth
import LatexLogic.Proofs.Rendering.Enclosed
import LatexLogic.Proofs.Table.Label

/-!
# Infix operators that can be used

A table takes any integer as the precedence of an infix operator, but formulas and terms are read
from the threshold `Level.whole`, which an operator reaches only if its precedence is not negative
(`OperandKind.admits_whole_iff`). So it depends on the precedence alone what becomes of an operator
between two operands in parentheses (`OperandKind.reader_between`): from zero on its node is read;
below zero the first operand is all that is read, and the operator remains.

A text of two formulas in parentheses with a connective of negative precedence between them is
refused at the connective, although its table was accepted (`Formula.parse_between_of_neg`). Prefix
connectives of negative precedence and quantifiers are read everywhere, as no threshold is compared
with them.
-/

set_option autoImplicit false

namespace LatexLogic

open Reader
open Lexeme (tokens)

/-- What stands on the two sides of an infix operator: formulas around a connective, terms around a
function. -/
inductive OperandKind where
  | formula
  | term
  deriving DecidableEq, Repr

namespace OperandKind

/-- The reader of operands, which also reads the operators between them. -/
def reader : OperandKind → Threshold → Reader Tree
  | formula => Reader.formula
  | term => Reader.term

/-- The operator between two operands that a token stands for. -/
def operator? : OperandKind → Token → Option InfixOperator
  | formula => Token.infixConnective?
  | term => Token.infixFunction?

/-- The precedence of a construct that stands between two operands. -/
def precedence? : OperandKind → Construct → Option Int
  | formula, .connective _ (.infixOp precedence _) => some precedence
  | term, .function _ (.infixOp precedence) => some precedence
  | _, _ => none

theorem forward_reader (kind : OperandKind) (m : Threshold) : (kind.reader m).Forward := by
  cases kind with
  | formula => exact forward_formula m
  | term => exact forward_term m

section Operator

variable {kind : OperandKind} {c : Construct} {precedence : Int}

/-- A construct with a precedence between two operands is an operator with its label. -/
theorem exists_operator (hc : kind.precedence? c = some precedence) (lexeme : Lexeme) :
    ∃ op, kind.operator? (.known lexeme c) = some op ∧ op.label = c.label := by
  rcases kind with _ | _ <;> rcases c with ⟨_, _ | _ | _⟩ | _ | _ | ⟨_, _ | _⟩
  case formula.connective.infixOp => exact ⟨_, rfl, rfl⟩
  case term.function.infixOp => exact ⟨_, rfl, rfl⟩
  all_goals cases hc

/-- The least threshold is reached by exactly the operators whose precedence is not negative. Four
powers belong to each precedence of a connective and two to each of a function, and the first of
them has the sign of the precedence. -/
theorem admits_whole_iff (hc : kind.precedence? c = some precedence) {lexeme : Lexeme}
    {op : InfixOperator} (hop : kind.operator? (.known lexeme c) = some op) :
    Level.whole.admits op.leftPower = true ↔ 0 ≤ precedence := by
  rcases kind with _ | _ <;> rcases c with ⟨_, _ | _ | ⟨p, side⟩⟩ | _ | _ | ⟨_, _ | p⟩
  case formula.connective.infixOp =>
    obtain rfl := Option.some.inj hc
    obtain rfl := Option.some.inj hop
    cases side <;>
      simp only [Level.whole, Threshold.admits, decide_eq_true_eq] <;>
      omega
  case term.function.infixOp =>
    obtain rfl := Option.some.inj hc
    obtain rfl := Option.some.inj hop
    simp only [Level.whole, Threshold.admits, decide_eq_true_eq]
    omega
  all_goals cases hc

end Operator

section Between

variable {table : Table} {kind : OperandKind} (htable : table.KeepsDelimiters) (form form' : Form)
  {ls ms : List Lexeme} {s t : Tree}

include htable

/-- An operand in parentheses is the first one of a run, whatever the threshold of the run. -/
theorem reader_parens (hs : kind.reader Level.whole (tokens table ls) = .ok s []) (m : Threshold)
    {rest : List Token} (hrest : ∀ t ∈ rest, t.Plain) :
    kind.reader m (tokens table (Lexeme.parens form ls) ++ rest) =
      infixRest kind.operator? kind.reader m s rest := by
  cases kind with
  | formula =>
    show Reader.formula m _ = _
    rw [formula_eq, bind_of_eq_ok (operand_parens htable form hs hrest)]
    rfl
  | term =>
    show Reader.term m _ = _
    rw [term_eq, bind_of_eq_ok (basicTerm_parens htable form hs rest)]
    rfl

variable {l : Lexeme} {c : Construct} {precedence : Int}
  (hl : Token.ofLexeme table l = .known l c) (hc : kind.precedence? c = some precedence)
  (hs : kind.reader Level.whole (tokens table ls) = .ok s [])

include hl hc hs

/-- An operator whose precedence is not negative is read between two operands in parentheses. -/
theorem reader_between_of_nonneg (hprecedence : 0 ≤ precedence)
    (ht : kind.reader Level.whole (tokens table ms) = .ok t []) :
    kind.reader Level.whole
        (tokens table (Lexeme.parens form ls ++ l :: Lexeme.parens form' ms)) =
      .ok (.node c.label [s, t]) [] := by
  obtain ⟨op, hop, hlabel⟩ := exists_operator hc l
  have hadmits := (admits_whole_iff hc hop).2 hprecedence
  -- On the right the threshold is the power of the operator, and nothing is left to compare with it.
  have hright : kind.reader (.power op.rightPower) (tokens table (Lexeme.parens form' ms)) =
      .ok t [] := by
    have hparens := reader_parens htable form' ht (.power op.rightPower) (List.forall_mem_nil _)
    rw [List.append_nil] at hparens
    rw [hparens]
    exact infixRest_of_none continuing?_nil t
  rw [tokens_append, reader_parens htable form hs _ (plain_tokens htable _), tokens_cons, hl,
    infixRest_of_some kind.forward_reader (continuing?_of_admits hop hadmits _),
    bind_of_eq_ok hright, hlabel]
  exact infixRest_of_none continuing?_nil _

/-- An operator of negative precedence ends the run in front of it. -/
theorem reader_between_of_neg (hprecedence : precedence < 0) :
    kind.reader Level.whole
        (tokens table (Lexeme.parens form ls ++ l :: Lexeme.parens form' ms)) =
      .ok s (tokens table (l :: Lexeme.parens form' ms)) := by
  obtain ⟨op, hop, -⟩ := exists_operator hc l
  have hadmits : ¬ Level.whole.admits op.leftPower = true := by
    rw [admits_whole_iff hc hop]
    exact Int.not_le.2 hprecedence
  rw [tokens_append, reader_parens htable form hs _ (plain_tokens htable _)]
  apply infixRest_of_none
  rw [tokens_cons, hl, continuing?_cons, hop, Option.filter_some, if_neg hadmits]

/-- What is read from two operands in parentheses with an infix operator of the table between them:
the node of the operator if its precedence is not negative, and the first operand alone if it is. -/
theorem reader_between (ht : kind.reader Level.whole (tokens table ms) = .ok t []) :
    kind.reader Level.whole
        (tokens table (Lexeme.parens form ls ++ l :: Lexeme.parens form' ms)) =
      if 0 ≤ precedence then .ok (.node c.label [s, t]) []
      else .ok s (tokens table (l :: Lexeme.parens form' ms)) := by
  split
  · next h => exact reader_between_of_nonneg htable form form' hl hc hs h ht
  · next h => exact reader_between_of_neg htable form form' hl hc hs (Int.not_le.1 h)

end Between

end OperandKind

/-- A text of two formulas in parentheses with a connective of negative precedence between them is
refused at the connective. -/
theorem Formula.parse_between_of_neg {table : Table} (htable : table.KeepsDelimiters)
    {text : String} {form form' : Form} {ls ms : List Lexeme} {l : Lexeme} {c : Construct}
    {precedence : Int} {s : Tree}
    (htext : Lexeme.scan text.toList = Lexeme.parens form ls ++ l :: Lexeme.parens form' ms)
    (hl : Token.ofLexeme table l = .known l c)
    (hc : OperandKind.formula.precedence? c = some precedence) (hprecedence : precedence < 0)
    (hs : Reader.formula Level.whole (tokens table ls) = .ok s []) :
    parse table text = .error (.fault (.badToken l.written none)) := by
  have hread : OperandKind.formula.reader Level.whole (tokenize table text) =
      .ok s (tokens table (l :: Lexeme.parens form' ms)) := by
    rw [tokenize, htext]
    exact OperandKind.reader_between_of_neg htable form form' hl hc hs hprecedence
  rw [tokens_cons] at hread
  rw [parse_of_formula_cons hread, written_ofLexeme]

/-! ## A table with an operator that cannot be used -/

namespace Table

/-- The connective of precedence minus one in the table `below`. -/
def belowPlus : Construct :=
  .connective "plus" (.infixOp (-1) .left)

/-- The table whose one connective has the precedence minus one. -/
def below : Table :=
  ⟨[("+", belowPlus)]⟩

/-- The mapping that describes the connective is accepted. -/
theorem below_ofData : Table.ofData [(.text "+", belowPlus.valued.toData)] = .ok below.valued :=
  ofData_singleton (by decide) nofun rfl

theorem below_keepsDelimiters : below.KeepsDelimiters := by
  decide

end Table

/-- In `(\\phi)+(\\psi)` the sum is not read. -/
theorem OperandKind.reader_between_plus :
    Reader.formula Level.whole (tokens Table.below (Lexeme.parens .short [.control "phi"] ++
        .char '+' :: Lexeme.parens .short [.control "psi"])) =
      .ok (.metavar "phi" [])
        (tokens Table.below (.char '+' :: Lexeme.parens .short [.control "psi"])) := by
  have hphi : Reader.formula Level.whole (tokens Table.below [.control "phi"]) =
      .ok (.metavar "phi" []) [] := by rfl
  have hpsi : Reader.formula Level.whole (tokens Table.below [.control "psi"]) =
      .ok (.metavar "psi" []) [] := by rfl
  have hplus : OperandKind.formula.precedence? Table.belowPlus = some (-1) := by rfl
  have hread : OperandKind.formula.reader Level.whole (tokens Table.below
      (Lexeme.parens .short [.control "phi"] ++
        .char '+' :: Lexeme.parens .short [.control "psi"])) = _ :=
    OperandKind.reader_between Table.below_keepsDelimiters .short .short rfl hplus hphi hpsi
  exact hread

/-- Not every infix operator of a table that is accepted can be used between parentheses. -/
theorem OperandKind.not_reader_between :
    ¬ ∀ (entries : List (Data × Data)) (table : Table), Table.ofData entries = .ok table.valued →
      table.KeepsDelimiters → ∀ (l : Lexeme) (label : String) (precedence : Int) (side : Side)
        (ls ms : List Lexeme) (s t : Tree),
      Token.ofLexeme table l = .known l (.connective label (.infixOp precedence side)) →
      Reader.formula Level.whole (tokens table ls) = .ok s [] →
      Reader.formula Level.whole (tokens table ms) = .ok t [] →
      Reader.formula Level.whole
          (tokens table (Lexeme.parens .short ls ++ l :: Lexeme.parens .short ms)) =
        .ok (.node label [s, t]) [] := by
  intro h
  have hphi : Reader.formula Level.whole (tokens Table.below [.control "phi"]) =
      .ok (.metavar "phi" []) [] := by rfl
  have hsum := h _ Table.below Table.below_ofData Table.below_keepsDelimiters
    (.char '+') "plus" (-1) .left [.control "phi"] [.control "phi"] _ _ rfl hphi hphi
  have hstops : Reader.formula Level.whole (tokens Table.below
      (Lexeme.parens .short [.control "phi"] ++
        .char '+' :: Lexeme.parens .short [.control "phi"])) =
      .ok (.metavar "phi" [])
        (tokens Table.below (.char '+' :: Lexeme.parens .short [.control "phi"])) := by rfl
  rw [hstops] at hsum
  cases hsum

end LatexLogic
