import LatexLogic.Proofs.Grammar.Following
import LatexLogic.Proofs.Rendering.Text
import Mathlib.Data.List.Forall2

/-!
# Tokens of lexemes

The tokens of a list of lexemes under a table (`Lexeme.tokens`). Where the table leaves the
delimiters alone, the lexemes of parentheses and commas become parentheses and commas. So what is
read from the parts of a list is read from them with commas between them (`list_commas`), and what
is derived from them is derived in parentheses (`derivation_parens`, `derivation_parenthesised`) and
with commas between them (`derivation_arguments`).
-/

set_option autoImplicit false

namespace LatexLogic

open Reader

/-- The tokens of lexemes. -/
def Lexeme.tokens (table : Table) (us : List Lexeme) : List Token :=
  us.map (Token.ofLexeme table)

section Tokens

open Lexeme (tokens)

variable (table : Table)

@[simp] theorem tokens_nil : tokens table [] = [] := rfl

@[simp] theorem tokens_cons (l : Lexeme) (us : List Lexeme) :
    tokens table (l :: us) = Token.ofLexeme table l :: tokens table us := rfl

@[simp] theorem tokens_append (us vs : List Lexeme) :
    tokens table (us ++ vs) = tokens table us ++ tokens table vs :=
  List.map_append

@[simp] theorem tokens_parens (form : Form) (us : List Lexeme) :
    tokens table (Lexeme.parens form us) = tokens table (Lexeme.opening form) ++
      (tokens table us ++ tokens table (Lexeme.closing form)) := by
  rw [Lexeme.parens, tokens_append, tokens_append]

theorem written_ofLexeme (l : Lexeme) : (Token.ofLexeme table l).written = l.written :=
  congrArg Lexeme.written (Token.lexeme_ofLexeme table l)

theorem opening_tokens (form : Form) : Opening form (tokens table (Lexeme.opening form)) := by
  cases form with
  | short => exact .short (written_ofLexeme table _)
  | long => exact .long (written_ofLexeme table _) (written_ofLexeme table _)

theorem closing_tokens (form : Form) : Closing form (tokens table (Lexeme.closing form)) := by
  cases form with
  | short => exact .short (written_ofLexeme table _)
  | long => exact .long (written_ofLexeme table _) (written_ofLexeme table _)

end Tokens

section Delimiters

open Lexeme (tokens)

variable {table : Table} (htable : table.KeepsDelimiters) {rest : List Token}

include htable

theorem plain_tokens (us : List Lexeme) : ∀ t ∈ tokens table us, t.Plain :=
  Token.plain_of_mem_map htable us

theorem ends_closing (form : Form) : Ends (tokens table (Lexeme.closing form) ++ rest) :=
  (closing_tokens table form).ends (plain_tokens htable _) rest

/-- A comma ends a term. -/
theorem termEnds_comma : TermEnds (Token.ofLexeme table (.char ',') :: rest) := by
  have hbare : (Token.ofLexeme table (.char ',')).IsBare :=
    (Token.plain_ofLexeme htable _).isBare (by rw [written_ofLexeme]; decide)
  exact hbare.termEnds (by rw [written_ofLexeme]; decide)

/-- Items that are read in front of all that ends a term are read with commas between them. -/
theorem list_commas {α : Type} {item : Reader α} (hforward : item.Forward) {as : List α}
    {uss : List (List Lexeme)}
    (h : List.Forall₂ (fun a us => ∀ rest, TermEnds rest →
      item (tokens table us ++ rest) = .ok a rest) as uss)
    (hne : as ≠ []) (hrest : Ends rest) :
    list item (tokens table (Lexeme.commas uss) ++ rest) = .ok as rest := by
  induction h with
  | nil => exact absurd rfl hne
  | @cons a us as uss hitem hmore ih =>
    cases hmore with
    | nil => exact list_of_end (hitem rest hrest.termEnds) (hrest.nextIs_eq_false (by decide))
    | @cons b vs as uss hitem' hmore' =>
      have hcomma : (Token.ofLexeme table (.char ',')).written = "," := written_ofLexeme table _
      have hlist := ih (List.cons_ne_nil _ _)
      have hends : TermEnds (Token.ofLexeme table (.char ',') ::
          (tokens table (Lexeme.commas (vs :: uss)) ++ rest)) := termEnds_comma htable
      have hread := hitem _ hends
      rw [Lexeme.commas, tokens_append, tokens_cons, List.append_assoc, List.cons_append,
        list_of_comma hforward hread hcomma, bind_of_eq_ok hlist]
      · rfl
      · exact List.cons_ne_nil _ _

/-! ## Derivations -/

/-- What is derived up to a closing parenthesis makes up a basic term in parentheses. -/
theorem derivation_parens (form : Form) {us : List Lexeme} {t : Tree}
    (h : ∀ rest, TermEnds rest → TermDerivation (.term Level.whole) (tokens table us) t rest)
    (rest : List Token) :
    TermDerivation .basic (tokens table (Lexeme.parens form us)) t rest := by
  rw [tokens_parens]
  exact .parens (opening_tokens table form) (closing_tokens table form)
    (h _ (ends_closing htable form).termEnds)

omit htable in
theorem derivation_term {m : Threshold} {u : List Token} {t : Tree}
    (h : TermDerivation .basic u t rest) (hrest : TermEnds rest) :
    TermDerivation (.term m) u t rest := by
  rw [← List.append_nil u]
  exact .term h (.stop (hrest.operator m))

/-- Arguments are derived one by one, up to the parenthesis that closes their list. -/
theorem derivation_arguments {kind : ArgumentKind} {label : String} {args : List Tree}
    {uss : List (List Lexeme)} (hne : args ≠ []) (hlength : args.length = uss.length)
    (h : ∀ p ∈ args.zip uss, ∀ rest, TermEnds rest →
      TermDerivation kind.phrase (tokens table p.2) p.1 rest)
    (hrest : Ends rest) :
    ∀ done, TermDerivation (.arguments kind label done) (tokens table (Lexeme.commas uss))
      (.node label (done ++ args)) rest := by
  induction args generalizing uss with
  | nil => exact absurd rfl hne
  | cons arg args ih =>
    intro done
    cases uss with
    | nil => cases hlength
    | cons us uss =>
      have hfirst := h (arg, us) List.mem_cons_self
      have hmore : ∀ p ∈ args.zip uss, ∀ rest, TermEnds rest →
          TermDerivation kind.phrase (tokens table p.2) p.1 rest :=
        fun p hp => h p (List.mem_cons_of_mem _ hp)
      have hlength' : args.length = uss.length := Nat.succ.inj hlength
      cases uss with
      | nil =>
        obtain rfl := List.eq_nil_of_length_eq_zero hlength'
        exact .last (hfirst rest hrest.termEnds) (hrest.nextIs_eq_false (by decide))
      | cons vs uss =>
        have hargs : args ≠ [] := by
          rintro rfl
          cases hlength'
        have hrec := ih hargs hlength' hmore (done ++ [arg])
        rw [List.append_assoc, List.singleton_append] at hrec
        rw [Lexeme.commas, tokens_append, tokens_cons]
        · exact .comma (hfirst _ (termEnds_comma htable)) (written_ofLexeme table _) hrec
        · exact List.cons_ne_nil _ _

omit htable in
theorem derivation_formula {m : Threshold} {u : List Token} {t : Tree}
    (h : FormulaDerivation .operand u t rest) (hrest : Ends rest) :
    FormulaDerivation (.formula m) u t rest := by
  rw [← List.append_nil u]
  exact .formula h (.stop (hrest.continuing?_eq_none m))

/-- What is derived up to a closing parenthesis makes up an operand in parentheses. -/
theorem derivation_parenthesised (form : Form) {us : List Lexeme} {t : Tree}
    (h : ∀ rest, Ends rest → FormulaDerivation (.formula Level.whole) (tokens table us) t rest)
    (rest : List Token) :
    FormulaDerivation .operand (tokens table (Lexeme.parens form us)) t rest := by
  rw [tokens_parens]
  exact .basicOperand (.parens (opening_tokens table form) (closing_tokens table form)
    (h _ (ends_closing htable form)))

end Delimiters

end LatexLogic
