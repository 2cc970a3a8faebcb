import LatexLogic.Proofs.Grammar.Choice
import LatexLogic.Proofs.Rendering.Tokens

/-!
# Renderings are read back

Reading undoes rendering: every rendering of a formula is read as that formula, to its last token
(`formula_of_isRendering`). The table has to leave delimiters, letters and digits alone and may have
no negative precedence (`Table.Legible`).

The lexemes of a rendering are matched with the rules of the grammar: each case of `TermText` and
`FormulaText` gives a derivation, in front of whatever can stand after a term or a formula in a
rendering (`TermEnds`, `Ends`). Derivations are read.
-/

set_option autoImplicit false

namespace LatexLogic

open Reader

/-! ## Tables -/

/-- No entry is spelled like a letter of a variable or like a digit. -/
def Table.KeepsNames (table : Table) : Prop :=
  ∀ c, isVariableLetter c = true ∨ isDecimalDigit c = true →
    table.get? (String.singleton c) = none

/-- The precedence that a table notes for a construct. -/
def Construct.precedence? : Construct → Option Int
  | connective _ (.nullary precedence _) => precedence
  | connective _ (.prefixOp precedence _) => some precedence
  | connective _ (.infixOp precedence _) => some precedence
  | function _ (.prefixOp _ _ precedence) => precedence
  | function _ (.infixOp precedence) => some precedence
  | quantifier _ => none
  | predicate _ _ => none

/-- What a table has to satisfy for renderings to be read back. -/
structure Table.Legible (table : Table) : Prop where
  keepsDelimiters : table.KeepsDelimiters
  keepsNames : table.KeepsNames
  precedence_nonneg : ∀ c p, table.Has c → c.precedence? = some p → 0 ≤ p

/-- No construct that a lexeme means has a negative precedence. -/
theorem Lexeme.Means.precedence_nonneg {table : Table} (htable : table.Legible) {l : Lexeme}
    {c : Construct} (h : l.Means table c) {p : Int} (hp : c.precedence? = some p) : 0 ≤ p :=
  htable.precedence_nonneg c p (Token.within_ofLexeme table l c (by rw [h.token_eq]; rfl)) hp

section RoundTrip

open Lexeme (tokens)

variable {table : Table} (htable : table.Legible) {rest : List Token}

include htable

theorem ofLexeme_char {c : Char} (hc : isVariableLetter c = true ∨ isDecimalDigit c = true) :
    Token.ofLexeme table (.char c) = .char c := by
  simp only [Token.ofLexeme, htable.keepsNames c hc]

/-- A predicate between two terms ends the left one. -/
theorem termEnds_of_means {l : Lexeme} {label : String}
    (hl : l.Means table (.predicate label .infixOp)) :
    TermEnds (Token.ofLexeme table l :: rest) where
  underscore := by
    have hplain := Token.plain_ofLexeme htable.keepsDelimiters l
    rw [hl.token_eq] at hplain ⊢
    simpa using hplain.written_ne (by decide)
  operator m := by
    rw [continuing?_cons, hl.token_eq]
    rfl

/-! ## Names -/

theorem tokens_digits {ds : List Char} (hdigits : ∀ d ∈ ds, isDecimalDigit d = true) :
    tokens table (ds.map .char) = ds.map .char := by
  rw [tokens, List.map_map]
  exact List.map_congr_left fun d hd => ofLexeme_char htable (Or.inr (hdigits d hd))

theorem subscriptSpelled_tokens {ds : List Char} (hne : ds ≠ [])
    (hdigits : ∀ d ∈ ds, isDecimalDigit d = true) :
    SubscriptSpelled (tokens table (Lexeme.subscript ('_' :: ds)) ++ rest) ds rest := by
  simp only [Lexeme.subscript, tokens_cons, tokens_append, tokens_nil, tokens_digits htable hdigits,
    List.cons_append, List.append_assoc, List.nil_append]
  exact .group rest (written_ofLexeme table _) (written_ofLexeme table _) hne hdigits
    (written_ofLexeme table _)

theorem withSubscript_tokens {name : String} {part : List Char}
    (hpart : isSubscriptPart part = true) (hrest : nextIs "_" rest = false) :
    withSubscript name (tokens table (Lexeme.subscript part) ++ rest) =
      .ok (name ++ String.ofList part) rest := by
  obtain rfl | ⟨ds, hne, hdigits, rfl⟩ := isSubscriptPart_iff.1 hpart
  · refine withSubscript_eq_ok_iff.2 (Or.inl ⟨hrest, ?_, rfl⟩)
    rw [String.ofList_nil, String.append_empty]
  · exact withSubscript_eq_ok_iff.2
      (Or.inr ⟨ds, subscriptSpelled_tokens htable hne hdigits, rfl⟩)

theorem variableSpelled_tokens {v : String} (hv : isVariable v = true)
    (hrest : nextIs "_" rest = false) :
    VariableSpelled (tokens table (Lexeme.ofVariable v) ++ rest) v rest := by
  obtain ⟨c, part, hname, hc, hpart⟩ := isVariable_iff.1 hv
  have hv' : v = String.singleton c ++ String.ofList part := by
    rw [← String.toList_inj, hname]
    simp
  rw [Lexeme.ofVariable, hname]
  simp only [tokens_cons, ofLexeme_char htable (Or.inl hc), List.cons_append]
  obtain rfl | ⟨ds, hne, hdigits, rfl⟩ := isSubscriptPart_iff.1 hpart
  · rw [hv', String.ofList_nil, String.append_empty]
    exact .plain rest hc hrest
  · rw [hv']
    exact .subscripted rest hc (subscriptSpelled_tokens htable hne hdigits)

/-- The variables of a declaration are read in the order in which they are written. -/
theorem list_variables {declared : List String} (hne : declared ≠ [])
    (hdeclared : ∀ v ∈ declared, isVariable v = true) (hrest : Ends rest) :
    list variableName (tokens table (Lexeme.commas (declared.map Lexeme.ofVariable)) ++ rest) =
      .ok declared rest := by
  refine list_commas htable.keepsDelimiters forward_variableName ?_ hne hrest
  rw [List.forall₂_map_right_iff, List.forall₂_same]
  intro v hv rest hrest
  exact variableName_eq_ok_iff.2 (variableSpelled_tokens htable (hdeclared v hv) hrest.underscore)

omit htable in
theorem nextIs_underscore_parens (form : Form) (us : List Lexeme) :
    nextIs "_" (tokens table (Lexeme.parens form us) ++ rest) = false := by
  cases form with
  | short => simp [Lexeme.opening, written_ofLexeme, Lexeme.written]
  | long => simp [Lexeme.opening, written_ofLexeme, Lexeme.written]

/-- The declaration of a metavariable is read as written, an empty one where nothing is. -/
theorem declaration_tokens (form : Form) {declared : List String}
    (hdeclared : ∀ v ∈ declared, isVariable v = true) (hrest : Ends rest) :
    declaration (tokens table (Lexeme.ofDeclaration form declared) ++ rest) =
      .ok declared rest := by
  rw [declaration, get_bind]
  by_cases hne : declared = []
  · subst hne
    rw [Lexeme.ofDeclaration, if_pos rfl, tokens_nil, List.nil_append, hrest.opensWith_eq_false]
    rfl
  · have hopen := opening_tokens table form
    rw [Lexeme.ofDeclaration, if_neg hne, tokens_parens, List.append_assoc, List.append_assoc,
      opensWith_iff.2 ⟨form, _, _, hopen, rfl⟩]
    exact parenthesised_eq_ok_iff.2 ⟨form, _, _, _, hopen, closing_tokens table form, rfl,
      list_variables htable hne hdeclared (ends_closing htable.keepsDelimiters form)⟩

theorem metavariable_tokens (form : Form) (letter : MetaLetter) {part : List Char}
    {declared : List String} (hpart : isSubscriptPart part = true)
    (hdeclared : ∀ v ∈ declared, isVariable v = true) (hrest : Ends rest) :
    metavariable letter
        (tokens table (Lexeme.subscript part ++ Lexeme.ofDeclaration form declared) ++ rest) =
      .ok (.metavar (letter.name ++ String.ofList part) declared) rest := by
  have hunderscore :
      nextIs "_" (tokens table (Lexeme.ofDeclaration form declared) ++ rest) = false := by
    by_cases hne : declared = []
    · rw [Lexeme.ofDeclaration, if_pos hne]
      exact hrest.nextIs_eq_false (by decide)
    · rw [Lexeme.ofDeclaration, if_neg hne]
      exact nextIs_underscore_parens form _
  rw [metavariable, tokens_append, List.append_assoc,
    bind_of_eq_ok (withSubscript_tokens htable hpart hunderscore),
    bind_of_eq_ok (declaration_tokens htable form hdeclared hrest)]
  rfl

/-! ## Terms -/

/-- The lexemes of a term are derived as that term. -/
theorem TermText.derivation {kind : ArgumentKind} {t : Tree} {us : List Lexeme}
    (h : TermText table kind t us) :
    ∀ rest, TermEnds rest → TermDerivation kind.phrase (tokens table us) t rest := by
  induction h with
  | name hv =>
    intro rest hrest
    exact .name (variableSpelled_tokens htable hv hrest.underscore)
  | @application form l label arity positive note args uss hl hargs huss _ ih =>
    intro rest _
    have hne : args ≠ [] := List.ne_nil_of_length_pos (hargs ▸ positive)
    rw [tokens_cons, hl.token_eq, tokens_parens]
    exact .application (opening_tokens table form) (closing_tokens table form)
      (derivation_arguments htable.keepsDelimiters hne (hargs.trans huss.symm) ih
        (ends_closing htable.keepsDelimiters form) [])
      hargs
  | parens form _ ih =>
    intro rest _
    exact derivation_parens htable.keepsDelimiters form ih rest
  | bare _ ih =>
    intro rest hrest
    exact derivation_term (ih rest hrest) hrest
  | @operation form form' l label precedence left right us vs hl _ _ ihleft ihright =>
    intro rest hrest
    have hpositive : 0 ≤ precedence := hl.precedence_nonneg htable rfl
    have hleft := derivation_parens htable.keepsDelimiters form ihleft
    have hright := derivation_parens htable.keepsDelimiters form' ihright
    rw [tokens_append, tokens_cons, hl.token_eq,
      ← List.append_nil (tokens table (Lexeme.parens form' vs))]
    have hpower : 0 ≤ 2 * precedence := by omega
    exact .term (hleft _) (.step rfl (decide_eq_true hpower) (derivation_term (hright _) hrest)
      (.stop (hrest.operator _)))

/-! ## Formulas -/

/-- The lexemes of a formula are derived as that formula. -/
theorem FormulaText.derivation {t : Tree} {us : List Lexeme} (h : FormulaText table t us) :
    ∀ rest, Ends rest → FormulaDerivation (.formula Level.whole) (tokens table us) t rest := by
  induction h with
  | @metavariable form letter part declared hpart hdeclared =>
    intro rest hrest
    have hletter : Token.ofLexeme table (.control letter.name) = .metavariable letter := by
      simp only [Token.ofLexeme, MetaLetter.ofName?_name]
    rw [tokens_cons, hletter]
    exact derivation_formula (.basicOperand (.metavariable
      (metavariable_tokens htable form letter hpart hdeclared hrest))) hrest
  | constant hl =>
    intro rest hrest
    rw [tokens_cons, hl.token_eq]
    exact derivation_formula (.basicOperand .constant) hrest
  | before form hl _ ih =>
    intro rest hrest
    have hoperand := derivation_parenthesised htable.keepsDelimiters form ih rest
    rw [tokens_cons, hl.token_eq]
    exact derivation_formula (.before (derivation_formula hoperand hrest)) hrest
  | @between form form' l label precedence side left right us vs hl _ _ ihleft ihright =>
    intro rest hrest
    have hpositive : 0 ≤ precedence := hl.precedence_nonneg htable rfl
    have hleft := derivation_parenthesised htable.keepsDelimiters form ihleft
    have hright := derivation_parenthesised htable.keepsDelimiters form' ihright
    rw [tokens_append, tokens_cons, hl.token_eq,
      ← List.append_nil (tokens table (Lexeme.parens form' vs))]
    have hpower : 0 ≤ (Construct.connectivePowers (.infixOp precedence side)).1 := by
      cases side with
      | left =>
        show 0 ≤ 4 * precedence + 2
        omega
      | right =>
        show 0 ≤ 4 * precedence + 1
        omega
    exact .formula (hleft _) (.step rfl (decide_eq_true hpower)
      (derivation_formula (hright _) hrest) (.stop (hrest.continuing?_eq_none _)))
  | @quantified form l label bound scope us hl hbound _ ih =>
    intro rest hrest
    have hvariable := isVariable_of_isOrdinaryVariable hbound
    have hscope := derivation_parenthesised htable.keepsDelimiters form ih rest
    rw [tokens_cons, hl.token_eq, tokens_append]
    exact derivation_formula (.quantified
      (variableSpelled_tokens htable hvariable (nextIs_underscore_parens form us))
      ((isOrdinaryVariable_iff_of_isVariable hvariable).1 hbound)
      (derivation_formula hscope hrest)) hrest
  | @predicate form l label arity positive args uss hl hargs huss hterms =>
    intro rest hrest
    have hne : args ≠ [] := List.ne_nil_of_length_pos (hargs ▸ positive)
    have harguments : TermDerivation (.arguments .full label []) (tokens table (Lexeme.commas uss))
        (.node label args) (tokens table (Lexeme.closing form) ++ rest) :=
      derivation_arguments htable.keepsDelimiters hne (hargs.trans huss.symm)
        (fun p hp => (hterms p hp).derivation htable) (ends_closing htable.keepsDelimiters form) []
    rw [tokens_cons, hl.token_eq, tokens_parens]
    exact derivation_formula (.basicOperand (.predicate (opening_tokens table form)
      (closing_tokens table form) harguments hargs)) hrest
  | @comparison l label left right us vs hl hleft hright =>
    intro rest hrest
    have hends : TermEnds (Token.ofLexeme table l :: (tokens table vs ++ rest)) :=
      termEnds_of_means htable hl
    have hread := hleft.derivation htable _ hends
    rw [hl.token_eq] at hread
    rw [tokens_append, tokens_cons, hl.token_eq]
    exact derivation_formula (.basicOperand
      (.comparison hread (hright.derivation htable rest hrest.termEnds))) hrest

end RoundTrip

theorem Table.standard_legible : Table.standard.Legible where
  keepsDelimiters := Table.standard_keepsDelimiters
  keepsNames c hc := by
    -- The only spelling of one character is the sign of equality.
    have hentries : Table.standard.spellings.all
        (fun spelling => spelling.length != 1 || spelling == "=") = true := by decide
    cases hget : Table.standard.get? (String.singleton c) with
    | none => rfl
    | some construct =>
      have hmem := List.mem_map_of_mem (f := Prod.fst) (Table.exists_mem_of_get? hget)
      have hspelling : String.singleton c = "=" := by
        simpa using List.all_eq_true.1 hentries _ hmem
      obtain rfl : c = '=' := by simpa using congrArg String.toList hspelling
      exact absurd hc (by decide)
  precedence_nonneg c p hc hp := by
    have hentries : ∀ entry ∈ Table.standard.entries, ∀ p ∈ entry.2.precedence?, 0 ≤ p := by decide
    obtain ⟨spelling, hget⟩ := hc
    exact hentries _ (Table.exists_mem_of_get? hget) p hp

/-- Every formula over constructs that can be written has a rendering, and each of its renderings is
read as that formula, with no token left over. -/
theorem formula_of_isRendering {table : Table} (htable : table.Legible) {tree : Tree}
    (htree : tree.IsFormula table.Live) :
    (∃ text, IsRendering table tree text) ∧
      ∀ text, IsRendering table tree text → ∀ depth, text.length < depth →
        (Level.ofDepth depth).formula Level.whole (tokenize table text) = .ok tree [] := by
  refine ⟨exists_isRendering htree, ?_⟩
  rintro text ⟨us, hus, hlayout⟩ depth hdepth
  have hderivation := hus.derivation htable [] ends_nil
  have hread : Reader.formula Level.whole (Lexeme.tokens table us ++ []) = .ok tree [] :=
    hderivation.reads (by simpa using plain_tokens htable.keepsDelimiters us)
  rw [List.append_nil] at hread
  rw [Level.ofDepth_eq_unlimited ((length_tokenize_le table text).trans_lt hdepth),
    tokenize_of_layout hlayout]
  exact hread

/-- A rendering with long parentheses, blanks and a declaration. -/
theorem formula_of_isRendering_forall :
    (Level.ofDepth 50).formula Level.whole (tokenize Table.standard
        "\\forall x_\x7b1\x7d ( \\neg\\left(\\phi(x_\x7b1\x7d)\\right))") =
      .ok (.node "forall" [.atom "x_1", .node "not" [.metavar "phi" ["x_1"]]]) [] := by
  have hforall : (Lexeme.control "forall").Means Table.standard (.quantifier "forall") :=
    ⟨writable_word (by decide) (by decide), rfl⟩
  have hneg : (Lexeme.control "neg").Means Table.standard (.connective "not" (.prefixOp 4 .null)) :=
    ⟨writable_word (by decide) (by decide), rfl⟩
  have hphi : FormulaText Table.standard
      (.metavar (MetaLetter.phi.name ++ String.ofList []) ["x_1"]) _ :=
    .metavariable .short rfl (by decide)
  have hsorted : Tree.IsFormula Table.standard.Live
      (.node "forall" [.atom "x_1", .node "not" [.metavar "phi" ["x_1"]]]) :=
    .quantified ⟨"forall", rfl, .inr (by decide)⟩ (by decide)
      (.before ⟨"neg", rfl, .inr (by decide)⟩
        (.metavariable ⟨.phi, [], rfl, by decide⟩ (by decide)))
  refine (formula_of_isRendering Table.standard_legible hsorted).2 _ ?_ 50 (by decide)
  exact ⟨_, .quantified .short hforall (by decide) (.before .long hneg hphi),
    layout_iff_scan_eq.2 (by decide)⟩

end LatexLogic
