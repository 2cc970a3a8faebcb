import LatexLogic.Proofs.Grammar.LockStep
import LatexLogic.Proofs.Grammar.Regroup
import LatexLogic.Proofs.Rendering.Tokens
import Mathlib.Tactic.Choose

/-!
# Wrong numbers of arguments

Whatever stands around it, a prefix operator with the wrong number of arguments is reported as such
(`wrongArgumentCount_of_formula`). In a formula the arguments of one operator are replaced by others
that are well formed but too many or too few. The lexemes before the operator are read as before,
for they are read in lock step; and at the operator its application fails, with an error after which
nothing else is tried.
-/

set_option autoImplicit false

namespace LatexLogic

open Reader
open Lexeme (tokens)

theorem Lexeme.written_ne_empty (l : Lexeme) : l.written.isEmpty = false := by
  cases l with
  | char c => simp [Lexeme.written]
  | control name => simp [Lexeme.written]

section Arguments

variable {table : Table} (htable : table.KeepsDelimiters) {kind : ArgumentKind}
  {rest : List Token}

include htable

/-- An argument that is read to its end is read in front of everything that ends a term. -/
theorem reader_of_termEnds {us : List Lexeme} {arg : Tree}
    (h : kind.reader (tokens table us) = .ok arg []) (hrest : TermEnds rest) :
    kind.reader (tokens table us ++ rest) = .ok arg rest := by
  obtain ⟨u, heq, hu⟩ := TermDerivation.of_reader h
  rw [List.append_nil] at heq
  subst heq
  have hplain := plain_tokens htable us
  have hmoved := hu.change_rest hplain (ArgumentKind.alike_phrase (ends_nil.termEnds.alike hrest))
  exact ArgumentKind.reads_phrase.1 (hmoved.reads hplain)

/-- Arguments that are read one by one are read with commas between them. -/
theorem exists_list_of_readers {uss : List (List Lexeme)} (hne : uss ≠ [])
    (h : ∀ us ∈ uss, ∃ arg, kind.reader (tokens table us) = .ok arg []) (hrest : Ends rest) :
    ∃ args, args.length = uss.length ∧
      list kind.reader (tokens table (Lexeme.commas uss) ++ rest) = .ok args rest := by
  choose! arg harg using h
  refine ⟨uss.map arg, List.length_map arg, ?_⟩
  refine list_commas htable kind.forward_reader ?_ (by simpa using hne) hrest
  rw [List.forall₂_map_left_iff, List.forall₂_same]
  intro us hus rest hrest
  exact reader_of_termEnds htable (harg us hus) hrest

/-- An operator in front of well-formed arguments of the wrong number fails with both numbers. -/
theorem application_of_length_ne {symbol label : String} {arity : Nat} (form : Form)
    {uss : List (List Lexeme)} (hsymbol : symbol.isEmpty = false) (hne : uss ≠ [])
    (h : ∀ us ∈ uss, ∃ arg, kind.reader (tokens table us) = .ok arg [])
    (hcount : uss.length ≠ arity) :
    Level.application symbol label arity kind.reader
        (tokens table (Lexeme.parens form (Lexeme.commas uss)) ++ rest) =
      .error (.fault (.ofCount symbol arity uss.length)) rest := by
  obtain ⟨args, hlength, hargs⟩ := exists_list_of_readers htable hne h (ends_closing htable form)
  have hread : parenthesised (list kind.reader)
      (tokens table (Lexeme.parens form (Lexeme.commas uss)) ++ rest) = .ok args rest := by
    rw [tokens_parens, List.append_assoc, List.append_assoc]
    exact parenthesised_eq_ok_iff.2
      ⟨form, _, _, _, opening_tokens table form, closing_tokens table form, rfl, hargs⟩
  have hne' : ¬ (args.length : Int) = arity := by
    rw [hlength]
    exact_mod_cast hcount
  rw [Level.application, bind_of_eq_ok hread, Tree.applied, if_neg hne', hsymbol, hlength]
  rfl

end Arguments

/-- A prefix operator of a formula, at any depth, is given other arguments: any number of
well-formed ones but the number it takes. Then the formula fails with the error that says so, with
the operator as written and both numbers. Both are numbers of arguments that are given somewhere, so
they can be written unless there are more arguments than any text can hold. -/
theorem wrongArgumentCount_of_formula {table : Table} (htable : table.KeepsDelimiters)
    {m : Threshold} {pre old post : List Lexeme} {l : Lexeme} {tree : Tree}
    (h : Reader.formula m (tokens table (pre ++ l :: (old ++ post))) = .ok tree [])
    {kind : ArgumentKind} {label : String} {arity : Nat}
    (hl : (Token.ofLexeme table l).Applies kind label arity) (form : Form)
    {uss : List (List Lexeme)} (hne : uss ≠ [])
    (huss : ∀ us ∈ uss, ∃ arg, kind.reader (tokens table us) = .ok arg [])
    (hcount : uss.length ≠ arity) :
    (∃ rest, Reader.formula m
        (tokens table (pre ++ l :: (Lexeme.parens form (Lexeme.commas uss) ++ post))) =
      .error (.fault (.ofCount l.written arity uss.length)) rest) ∧
    (Numeral.isTooLong arity = false → Numeral.isTooLong uss.length = false →
      FormulaError.ofCount l.written arity uss.length =
        .wrongArgumentCount l.written arity uss.length) := by
  refine ⟨?_, FormulaError.ofCount_eq⟩
  have hfails : Level.application (Token.ofLexeme table l).written label arity kind.reader
      (tokens table (Lexeme.parens form (Lexeme.commas uss)) ++ tokens table post) =
      .error (.fault (.ofCount l.written arity uss.length)) (tokens table post) := by
    rw [written_ofLexeme]
    exact application_of_length_ne htable form (Lexeme.written_ne_empty l) hne huss hcount
  rw [tokens_append, tokens_cons] at h
  rw [tokens_append, tokens_cons, tokens_append]
  -- The two lists part at the operator.
  exact (hl.fork (Token.plain_ofLexeme htable l) _ _ (FormulaError.isArgumentCount_ofCount _ _ _)
    ⟨_, hfails⟩).exists_error h

/-- A table with a predicate of two places and a function of one. -/
def Table.successor : Table :=
  ⟨[("neg", .connective "not" (.prefixOp 4 .null)),
    ("less", .predicate "less" (.prefixOp 2 (by decide))),
    ("succ", .function "succ" (.prefixOp 1 (by decide) none))]⟩

theorem Table.successor_keepsDelimiters : Table.successor.KeepsDelimiters := by
  decide

/-- The function of one place in `\\neg\\less((x),\\succ(y))` is given the arguments `y` and
`\\succ(x)`. -/
theorem wrongArgumentCount_of_formula_less :
    ∃ rest, Reader.formula Level.whole (tokens Table.successor
        [.control "neg", .control "less", .char '(', .char '(', .char 'x', .char ')', .char ',',
          .control "succ", .char '(', .char 'y', .char ',', .control "succ", .char '(', .char 'x',
          .char ')', .char ')', .char ')']) =
      .error (.fault (.wrongArgumentCount "\\succ" 1 2)) rest := by
  have hread : Reader.formula Level.whole (tokens Table.successor
      ([.control "neg", .control "less", .char '(', .char '(', .char 'x', .char ')', .char ','] ++
        .control "succ" :: ([.char '(', .char 'y', .char ')'] ++ [.char ')']))) =
      .ok (.node "not" [.node "less" [.atom "x", .node "succ" [.atom "y"]]]) [] := by
    rfl
  have hsucc : (Token.ofLexeme Table.successor (.control "succ")).Applies .basic "succ" 1 := by
    have htoken : Token.ofLexeme Table.successor (.control "succ") =
        .known (.control "succ") (.function "succ" (.prefixOp 1 (by decide) none)) := by rfl
    rw [htoken]
    exact .function
  have hargs : ∀ us ∈ [[Lexeme.char 'y'], [.control "succ", .char '(', .char 'x', .char ')']],
      ∃ arg, ArgumentKind.basic.reader (tokens Table.successor us) = .ok arg [] := by
    intro us hus
    simp only [List.mem_cons, List.not_mem_nil, or_false] at hus
    rcases hus with rfl | rfl
    · exact ⟨.atom "y", by rfl⟩
    · exact ⟨.node "succ" [.atom "x"], by rfl⟩
  obtain ⟨⟨rest, hreplaced⟩, hcount⟩ := wrongArgumentCount_of_formula
    Table.successor_keepsDelimiters hread hsucc .short (List.cons_ne_nil _ _) hargs (by decide)
  exact ⟨rest, hreplaced.trans (by rw [hcount (by decide) (by decide)]; rfl)⟩

end LatexLogic
