import LatexLogic.Proofs.Grammar.Choice
import LatexLogic.Proofs.Grammar.Limit
import LatexLogic.Proofs.Recovery.Origin
import LatexLogic.Proofs.Table.Extend

/-!
# What the tokens of a text are

The tokens of a text are the meanings of the lexemes among its pieces, one for each
(`tokenize_eq_iff_pieces`). The meaning of a lexeme is said by cases that exclude each other
(`Token.Classifies`): a metavariable, what the table says of the spelling, or nothing.

The pieces are the text, cut up, and only blanks are skipped. So the tokens written one after the
other are the text without the blanks that are skipped, and a text without tokens is one of blanks
only, which is the one that is refused as blank (`Formula.parseWithin_eq_blank_iff`).
-/

set_option autoImplicit false

namespace LatexLogic

/-! ## Meanings -/

namespace Token

/-- What a lexeme means: a metavariable, what the table says of its spelling, or nothing. -/
inductive Classifies (table : Table) : Lexeme → Token → Prop where
  | metavariable (letter : MetaLetter) :
      Classifies table (.control letter.name) (.metavariable letter)
  | known {l : Lexeme} {c : Construct} : l.IsLookedUp → table.get? l.spelling = some c →
      Classifies table l (.known l c)
  | char {c : Char} : table.get? (String.singleton c) = none →
      Classifies table (.char c) (.char c)
  | unrecognized {name : String} : (Lexeme.control name).IsLookedUp → table.get? name = none →
      Classifies table (.control name) (.unrecognized name)

variable {table : Table} {l : Lexeme} {t : Token}

theorem isLookedUp_iff {name : String} :
    (Lexeme.control name).IsLookedUp ↔ MetaLetter.ofName? name = none := by
  rw [Option.eq_none_iff_forall_ne_some]
  refine forall_congr' fun letter => not_congr ?_
  rw [MetaLetter.ofName?_eq_some_iff, Lexeme.control.injEq]

/-- Every lexeme has its one meaning. -/
theorem ofLexeme_eq_iff : ofLexeme table l = t ↔ Classifies table l t := by
  constructor
  · rintro rfl
    -- A character is not looked up among the metavariables, whose names are words.
    cases l with
    | char c =>
      dsimp only [ofLexeme]
      cases hget : table.get? (String.singleton c) with
      | some construct => exact .known nofun hget
      | none => exact .char hget
    | control name =>
      dsimp only [ofLexeme]
      cases hletter : MetaLetter.ofName? name with
      | some letter =>
        obtain rfl := MetaLetter.ofName?_eq_some_iff.1 hletter
        exact .metavariable letter
      | none =>
        have hlookedUp := isLookedUp_iff.2 hletter
        dsimp only
        cases hget : table.get? name with
        | some construct => exact .known hlookedUp hget
        | none => exact .unrecognized hlookedUp hget
  · rintro (letter | ⟨hlookedUp, hget⟩ | hget | ⟨hlookedUp, hget⟩)
    · simp only [ofLexeme, MetaLetter.ofName?_name]
    · cases l with
      | char c =>
        have hget' : table.get? (String.singleton c) = _ := hget
        simp only [ofLexeme, hget']
      | control name =>
        have hget' : table.get? name = _ := hget
        simp only [ofLexeme, isLookedUp_iff.1 hlookedUp, hget']
    · simp only [ofLexeme, hget]
    · simp only [ofLexeme, isLookedUp_iff.1 hlookedUp, hget]

/-- Lexemes have their meanings one by one. -/
theorem map_ofLexeme_eq_iff {ls : List Lexeme} {ts : List Token} :
    ls.map (ofLexeme table) = ts ↔ List.Forall₂ (Classifies table) ls ts := by
  simp only [← List.forall₂_eq_eq_eq, List.forall₂_map_left_iff, ofLexeme_eq_iff]

end Token

/-! ## Blank texts -/

/-- Only a text of blanks has no tokens. -/
theorem tokenize_eq_nil_iff {table : Table} {text : String} :
    tokenize table text = [] ↔ text.toList.all Text.isBlank = true := by
  refine ⟨fun h => ?_, tokenize_of_blank⟩
  rw [tokenize, List.map_eq_nil_iff, Lexeme.scan_eq_lexemesOf, lexemesOf,
    List.filterMap_eq_nil_iff] at h
  -- Every character belongs to a piece, and all pieces are skipped.
  rw [List.all_eq_true]
  intro b hb
  rw [← Piece.flatMap_chars text.toList] at hb
  obtain ⟨piece, hpiece, hb⟩ := List.mem_flatMap.1 hb
  cases piece with
  | lexeme l => cases h _ hpiece
  | skipped b' =>
    obtain rfl := List.mem_singleton.1 hb
    exact Piece.isBlank_of_skipped_mem hpiece

/-- No token is at fault for a text being blank. -/
theorem FaultIn.ne_blank {error : FormulaError} {ts : List Token} (h : FaultIn (.fault error) ts) :
    error ≠ .blank := by
  rintro rfl
  obtain ⟨pre, post, -, hfault⟩ := h
  cases hfault with
  | token hfault => exact hfault
  | function _ happly => exact nomatch (applied_isArgumentCount happly).1
  | predicate _ happly => exact nomatch (applied_isArgumentCount happly).1

namespace Formula

/-- The checks on a tree do not find a text blank. -/
theorem ofTree_ne_blank (isQuantifier : String → Bool) (raw : Tree) :
    ofTree isQuantifier raw ≠ .error .blank := by
  unfold ofTree
  repeat' split
  all_goals nofun

/-- Only a text of blanks is refused as blank. -/
theorem blank_of_parse {table : Table} {text : String}
    (h : parse table text = .error (.fault .blank)) : text.toList.all Text.isBlank = true := by
  rcases origin_of_parse h with ⟨hblank, -⟩ | hfault | ⟨raw, error, -, hchecks, heq⟩
  · exact hblank
  · exact absurd rfl hfault.ne_blank
  · cases heq
    exact absurd hchecks (ofTree_ne_blank _ raw)

/-- A text is refused as blank if it has no tokens, whatever depth is allowed. -/
theorem parseWithin_eq_blank_iff {depth : Nat} {table : Table} {text : String} :
    parseWithin depth table text = .error (.fault .blank) ↔ tokenize table text = [] := by
  rw [tokenize_eq_nil_iff]
  constructor
  · intro h
    -- A limit of depth has an error of its own.
    rcases parseWithin_eq_or_tooDeep depth table text with hdeep | hparse
    · rw [hdeep] at h
      cases h
    · exact blank_of_parse (hparse ▸ h)
  · intro h
    simp only [parseWithin, h, if_true]

end Formula

/-! ## Tokens -/

/-- The tokens of a text are the meanings of the lexemes among its pieces. The pieces are the text, cut
up, and those that are skipped are blanks, so the tokens written one after the other are the text
without the blanks that are skipped. A text without tokens is one that is refused as blank. -/
theorem tokenize_eq_iff_pieces (table : Table) (text : String) :
    (∀ ts, tokenize table text = ts ↔
      List.Forall₂ (Token.Classifies table) (lexemesOf text.toList) ts) ∧
    (pieces text.toList).flatMap Piece.chars = text.toList ∧
    (∀ b, .skipped b ∈ pieces text.toList → Text.isBlank b = true) ∧
    ((tokenize table text).flatMap fun t => t.written.toList) =
      (pieces text.toList).flatMap Piece.kept ∧
    ∀ depth, tokenize table text = [] ↔
      Formula.parseWithin depth table text = .error (.fault .blank) := by
  have htokens : tokenize table text = (lexemesOf text.toList).map (Token.ofLexeme table) := by
    rw [tokenize, Lexeme.scan_eq_lexemesOf]
  refine ⟨fun ts => ?tokens, Piece.flatMap_chars _, fun b => Piece.isBlank_of_skipped_mem, ?written,
    fun depth => Formula.parseWithin_eq_blank_iff.symm⟩
  case tokens => rw [htokens, Token.map_ofLexeme_eq_iff]
  case written =>
    rw [htokens, List.flatMap_map, Piece.flatMap_kept]
    simp only [Token.written, Token.lexeme_ofLexeme]
    rfl

/-- In `\\neg\\phi \\ ` the second blank belongs to the backslash in front of it. -/
theorem tokenize_eq_iff_pieces_negation :
    List.Forall₂ (Token.Classifies Table.standard)
        [.control "neg", .control "phi", .control " "]
        (tokenize Table.standard "\\neg\\phi \\ ") ∧
      Text.isBlank ' ' = true ∧
      ((tokenize Table.standard "\\neg\\phi \\ ").flatMap fun t => t.written.toList) =
        "\\neg\\phi\\ ".toList ∧
      Formula.parseWithin 0 Table.standard "\\neg\\phi \\ " ≠ .error (.fault .blank) := by
  obtain ⟨htokens, -, hskipped, hwritten, hblank⟩ :=
    tokenize_eq_iff_pieces Table.standard "\\neg\\phi \\ "
  have hpieces : pieces "\\neg\\phi \\ ".toList =
      [.lexeme (.control "neg"), .lexeme (.control "phi"), .skipped ' ',
        .lexeme (.control " ")] := by
    decide +kernel
  have htokens' := (htokens _).1 rfl
  rw [lexemesOf, hpieces] at htokens'
  rw [hpieces] at hskipped hwritten
  refine ⟨htokens', hskipped ' ' (by simp), hwritten.trans (by decide), fun h => ?_⟩
  have hnil := (htokens []).1 ((hblank 0).2 h)
  rw [lexemesOf, hpieces] at hnil
  cases hnil

end LatexLogic
