import LatexLogic.Proofs.Grammar.Choice
import LatexLogic.Proofs.Grammar.Regroup
import LatexLogic.Proofs.Rendering.Tokens

/-!
# Texts in parentheses

A text that is parsed is parsed in parentheses too, as the same formula, however many of them there
are and in whichever form each is written (`Formula.parse_enclosed`).

In parentheses the formula is derived from the same tokens, which now stand in front of the closing
parenthesis and not at the end of the text. They are the same tokens unless the text ends with a
backslash, which the closing parenthesis would belong to. No formula does: its words are those of
the table, metavariables, and the sides of parentheses (`FormulaDerivation.used`).
-/

set_option autoImplicit false

namespace LatexLogic

open Reader
open Lexeme (tokens)

/-! ## Words -/

/-- If the token is a word without a meaning it belongs to a delimiter. -/
def Token.IsUsed (t : Token) : Prop :=
  ∀ name, t = .unrecognized name → t.written ∈ delimiters

section Used

variable {u rest : List Token} {tree : Tree}

theorem Token.isUsed_known {lexeme : Lexeme} {c : Construct} : (known lexeme c).IsUsed := nofun

theorem Token.isUsed_of_mem {t : Token} (h : t.written ∈ delimiters) : t.IsUsed := fun _ _ => h

theorem Token.NamePart.isUsed {t : Token} (h : t.NamePart) : t.IsUsed := by
  rcases h with ⟨c, rfl, -⟩ | hmem
  · exact nofun
  · refine isUsed_of_mem ?_
    simp only [List.mem_cons, List.not_mem_nil, or_false] at hmem
    simp only [delimiters, List.mem_cons, List.not_mem_nil, or_false]
    tauto

/-- Every token of parentheses is used if those inside are. -/
theorem isUsed_parens {form : Form} {us vs : List Token} (hopen : Opening form us)
    (hclose : Closing form vs) (h : ∀ t ∈ u, t.IsUsed) : ∀ t ∈ us ++ (u ++ vs), t.IsUsed := by
  rw [List.forall_mem_append, List.forall_mem_append]
  exact ⟨fun t ht => Token.isUsed_of_mem (hopen.mem_delimiters t ht), h,
    fun t ht => Token.isUsed_of_mem (hclose.mem_delimiters t ht)⟩

theorem Reader.DeclarationSpelled.used {names : List String} (h : DeclarationSpelled u names rest) :
    ∀ t ∈ u, t.IsUsed := by
  cases h with
  | none _ => nofun
  | group hopen hclose hnames =>
    apply isUsed_parens hopen hclose
    intro t ht
    rcases hnames.nameParts t ht with hpart | hcomma
    · exact hpart.isUsed
    · exact Token.isUsed_of_mem (by rw [hcomma]; decide)

/-- Every token of a term is used. -/
theorem TermDerivation.used {p : TermPhrase} (h : TermDerivation p u tree rest) :
    ∀ t ∈ u, t.IsUsed := by
  induction h with
  | term _ _ ihfirst ihmore => exact List.forall_mem_append.2 ⟨ihfirst, ihmore⟩
  | stop _ => nofun
  | step hop _ _ _ ihright ihmore =>
    obtain ⟨lexeme, precedence, rfl, -⟩ := Token.infixFunction?_eq_some hop
    rw [List.forall_mem_cons, List.forall_mem_append]
    exact ⟨Token.isUsed_known, ihright, ihmore⟩
  | name hname => exact fun t ht => (hname.nameParts t ht).isUsed
  | parens hopen hclose _ ih => exact isUsed_parens hopen hclose ih
  | application hopen hclose _ _ ih =>
    exact List.forall_mem_cons.2 ⟨Token.isUsed_known, isUsed_parens hopen hclose ih⟩
  | last _ _ ih => exact ih
  | comma _ ht _ ih ihmore =>
    rw [List.forall_mem_append, List.forall_mem_cons]
    exact ⟨ih, Token.isUsed_of_mem (by rw [ht]; decide), ihmore⟩

/-- Every token of a formula is used. -/
theorem FormulaDerivation.used {p : FormulaPhrase} (h : FormulaDerivation p u tree rest) :
    ∀ t ∈ u, t.IsUsed := by
  induction h with
  | formula _ _ ihfirst ihmore => exact List.forall_mem_append.2 ⟨ihfirst, ihmore⟩
  | stop _ => nofun
  | step hop _ _ _ ihright ihmore =>
    obtain ⟨lexeme, precedence, side, rfl⟩ := Token.infixConnective?_eq_some hop
    rw [List.forall_mem_cons, List.forall_mem_append]
    exact ⟨Token.isUsed_known, ihright, ihmore⟩
  | before _ ih => exact List.forall_mem_cons.2 ⟨Token.isUsed_known, ih⟩
  | quantified hname _ _ ih =>
    rw [List.forall_mem_cons, List.forall_mem_append]
    exact ⟨Token.isUsed_known, fun t ht => (hname.nameParts t ht).isUsed, ih⟩
  | basicOperand _ ih => exact ih
  | metavariable hread =>
    obtain ⟨v, w, name, declared, rfl, hname, hdeclared, rfl⟩ := metavariable_parts hread
    rw [List.forall_mem_cons, List.forall_mem_append]
    exact ⟨nofun, fun t ht => (nameParts_of_withSubscript hname t ht).isUsed, hdeclared.used⟩
  | constant => exact List.forall_mem_singleton.2 Token.isUsed_known
  | predicate hopen hclose hargs _ =>
    exact List.forall_mem_cons.2 ⟨Token.isUsed_known, isUsed_parens hopen hclose hargs.used⟩
  | parens hopen hclose _ ih => exact isUsed_parens hopen hclose ih
  | comparison hleft hright =>
    rw [List.forall_mem_append, List.forall_mem_cons]
    exact ⟨hleft.used, Token.isUsed_known, hright.used⟩

/-- A backslash alone has no use. -/
theorem control_empty_notMem {table : Table} (htable : table.WellFormed) {ls : List Lexeme}
    (h : ∀ t ∈ tokens table ls, t.IsUsed) : Lexeme.control "" ∉ ls := by
  intro hmem
  have hget : table.get? "" = none := by
    cases hget : table.get? "" with
    | none => rfl
    | some c => exact absurd rfl (htable.spelling_ne_empty _ (Table.exists_mem_of_get? hget))
  have hname : MetaLetter.ofName? "" = none := ofName?_eq_none (by decide)
  have htoken : Token.ofLexeme table (.control "") = .unrecognized "" := by
    simp only [Token.ofLexeme, hname, hget]
  have hused := h _ (List.mem_map_of_mem hmem) "" htoken
  rw [htoken] at hused
  exact absurd hused (by decide)

end Used

/-! ## Enclosing -/

/-- The text in parentheses. -/
def Reader.Form.enclose : Form → String → String
  | .short, text => "(" ++ text ++ ")"
  | .long, text => "\\left(" ++ text ++ "\\right)"

/-- The text in parentheses of the given forms, the outermost first. -/
def enclosed (forms : List Form) (text : String) : String :=
  forms.foldr Form.enclose text

/-- A word for a side is laid out with the parenthesis after it. -/
theorem layout_side {word : String} {paren : Char} {ls : List Lexeme} {cs : List Char}
    (hne : word.toList ≠ []) (hletters : word.toList.all isControlLetter = true)
    (hparen : paren ∈ ['(', ')']) (h : Layout ls cs) :
    Layout (.control word :: .char paren :: ls) ('\\' :: (word.toList ++ paren :: cs)) := by
  have hplain : paren ≠ '\\' ∧ Text.isBlank paren = false ∧ isControlLetter paren = false := by
    simp only [List.mem_cons, List.not_mem_nil, or_false] at hparen
    rcases hparen with rfl | rfl
    · decide
    · decide
  have hnext : letterNext (paren :: cs) = false := hplain.2.2
  have hword := Layout.word hne (List.all_eq_true.1 hletters) hnext (.char hplain.1 hplain.2.1 h)
  rwa [String.ofList_toList] at hword

/-- The lexemes of a text in parentheses are its own in parentheses. -/
theorem layout_enclose (form : Form) {ls : List Lexeme} {text : String}
    (h : Layout ls text.toList) (hlone : Lexeme.control "" ∉ ls) :
    Layout (Lexeme.parens form ls) (form.enclose text).toList := by
  cases form with
  | short =>
    have hclose : Layout (Lexeme.closing .short) [')'] := .char (by decide) (by decide) .nil
    have htext : (Form.short.enclose text).toList = '(' :: (text.toList ++ [')']) := by
      simp [Form.enclose]
    rw [htext]
    exact .char (by decide) (by decide) (h.append hlone hclose (by decide))
  | long =>
    have hclose : Layout (Lexeme.closing .long) ('\\' :: ("right".toList ++ [')'])) :=
      layout_side (by decide) (by decide) (by decide) .nil
    have htext : (Form.long.enclose text).toList = '\\' ::
        ("left".toList ++ '(' :: (text.toList ++ '\\' :: ("right".toList ++ [')']))) := by
      simp [Form.enclose]
    rw [htext]
    have hinside := h.append hlone hclose (by decide)
    exact layout_side (by decide) (by decide) (by decide) hinside

section Parens

variable {table : Table} (htable : table.KeepsDelimiters) (form : Form) {ls : List Lexeme}
  {tree : Tree}

include htable

/-- A formula is read in parentheses as an operand, in front of anything. -/
theorem operand_parens (h : Reader.formula Level.whole (tokens table ls) = .ok tree [])
    {rest : List Token} (hrest : ∀ t ∈ rest, t.Plain) :
    Reader.operand (tokens table (Lexeme.parens form ls) ++ rest) = .ok tree rest := by
  obtain ⟨u, heq, hu⟩ := FormulaDerivation.of_formula h
  rw [List.append_nil] at heq
  subst heq
  -- The derivation is moved from the end of the tokens to the parenthesis that closes.
  have hmoved : ∀ rest, Ends rest →
      FormulaDerivation (.formula Level.whole) (tokens table ls) tree rest := by
    intro rest hrest
    exact hu.change_rest (plain_tokens htable ls) (ends_nil.alike hrest)
  apply (derivation_parenthesised htable form hmoved rest).reads
  exact List.forall_mem_append.2 ⟨plain_tokens htable _, hrest⟩

/-- A term is read in parentheses as a basic term, in front of anything. -/
theorem basicTerm_parens (h : Reader.term Level.whole (tokens table ls) = .ok tree [])
    (rest : List Token) :
    basicTerm (tokens table (Lexeme.parens form ls) ++ rest) = .ok tree rest := by
  obtain ⟨u, heq, hu⟩ := TermDerivation.of_term h
  rw [List.append_nil] at heq
  subst heq
  have hmoved : ∀ rest, TermEnds rest →
      TermDerivation (.term Level.whole) (tokens table ls) tree rest := by
    intro rest hrest
    exact hu.change_rest (plain_tokens htable ls) (ends_nil.termEnds.alike hrest)
  exact (derivation_parens htable form hmoved rest).reads (plain_tokens htable _)

/-- A formula is read in parentheses as the same formula. -/
theorem formula_parens (h : Reader.formula Level.whole (tokens table ls) = .ok tree []) :
    Reader.formula Level.whole (tokens table (Lexeme.parens form ls)) = .ok tree [] := by
  have hoperand := operand_parens htable form h (List.forall_mem_nil _)
  rw [List.append_nil] at hoperand
  rw [formula_eq, bind_of_eq_ok hoperand]
  exact infixRest_of_none continuing?_nil tree

end Parens

namespace Formula

variable {table : Table} {text : String} {f : Formula}

/-- A text that is parsed is parsed in parentheses as the same formula. -/
theorem parse_enclose (hkeeps : table.KeepsDelimiters) (hwell : table.WellFormed) (form : Form)
    (h : parse table text = .ok f) : parse table (form.enclose text) = .ok f := by
  obtain ⟨-, raw, hraw, hdepth, hchecks⟩ := parse_eq_ok_iff.1 h
  have hlength : ∀ text, (tokenize table text).length < text.length + 1 :=
    fun text => Nat.lt_succ_of_le (length_tokenize_le table text)
  have hread := (treeOfTokens_eq_ok_iff (hlength text)).1 hraw
  have hused : ∀ t ∈ tokenize table text, t.IsUsed := by
    obtain ⟨u, heq, hu⟩ := FormulaDerivation.of_formula hread
    rw [heq, List.append_nil]
    exact hu.used
  have hlayout := layout_enclose form (layout_iff_scan_eq.2 rfl) (control_empty_notMem hwell hused)
  have htokens : tokenize table (form.enclose text) =
      tokens table (Lexeme.parens form (Lexeme.scan text.toList)) :=
    tokenize_of_layout hlayout table
  have hlonger : text.length + 1 ≤ (form.enclose text).length + 1 := by
    cases form <;> simp only [Form.enclose, String.length_append] <;> omega
  refine parse_eq_ok_iff.2 ⟨?_, raw, ?_, hdepth.trans hlonger, hchecks⟩
  · cases form <;> simp [Form.enclose, Text.isBlank, Text.blankRanges]
  · rw [treeOfTokens_eq_ok_iff (hlength _), htokens]
    exact formula_parens hkeeps form hread

/-- A text that is parsed is parsed in any number of parentheses of either form as the same
formula: the same tree with the same declarations in the same order. -/
theorem parse_enclosed (hkeeps : table.KeepsDelimiters) (hwell : table.WellFormed)
    (h : parse table text = .ok f) (forms : List Form) :
    parse table (enclosed forms text) = .ok f := by
  induction forms with
  | nil => exact h
  | cons form forms ih => exact parse_enclose hkeeps hwell form ih

/-- A formula with two declarations in three pairs of parentheses. -/
theorem parse_enclosed_forall :
    parse Table.standard "(\\left((\\forall x \\psi(x)\\land\\phi)\\right))" =
      .ok ⟨.node "and" [.node "forall" [.atom "x", .atom "psi"], .atom "phi"],
        [("psi", ["x"]), ("phi", [])]⟩ := by
  have h : parse Table.standard "\\forall x \\psi(x)\\land\\phi" =
      .ok ⟨.node "and" [.node "forall" [.atom "x", .atom "psi"], .atom "phi"],
        [("psi", ["x"]), ("phi", [])]⟩ := by
    decide +kernel
  exact parse_enclosed Table.standard_keepsDelimiters Table.standard_wellFormed h
    [.short, .long, .short]

end Formula

end LatexLogic
