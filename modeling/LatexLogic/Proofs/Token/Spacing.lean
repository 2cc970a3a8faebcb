import LatexLogic.Proofs.Token.Meaning

/-!
# Blanks between tokens

Blanks between the tokens of a text make no difference (`spacing_immaterial`). The tokens of a text,
written one after the other with blanks between them, are read as the same tokens; and so is the text
with blanks put in at any place between two of its tokens. The outcome of parsing depends on the tokens
alone (`Formula.parse_congr`), so it is the same for all these texts.

Both new texts are layouts of the lexemes of the old one. A blank never follows a backslash that is
open, which would take it for a symbol of its own, as the lexeme of the backslash is not cut in two and
a backslash without anything behind it is the last lexeme. A word needs no blank to end it where none
was before.
-/

set_option autoImplicit false

namespace LatexLogic

/-! ## Gaps -/

/-- The characters are blanks. -/
def IsGap (gap : List Char) : Prop :=
  ∀ b ∈ gap, Text.isBlank b = true

namespace IsGap

variable {gap cs : List Char} (h : IsGap gap)

include h

/-- Blanks may be put in front of a layout. -/
theorem layout {ls : List Lexeme} (hcs : Layout ls cs) : Layout ls (gap ++ cs) := by
  induction gap with
  | nil => exact hcs
  | cons b gap ih =>
    obtain ⟨hb, hgap⟩ := List.forall_mem_cons.1 h
    exact .blank hb (ih hgap)

/-- Behind a gap no letter stands next unless the gap is empty and one stood there before. -/
theorem letterNext_append (hnext : gap = [] → letterNext cs = false) :
    letterNext (gap ++ cs) = false := by
  cases gap with
  | nil => exact hnext rfl
  | cons b gap => exact isControlLetter_of_isBlank (h b List.mem_cons_self)

end IsGap

/-! ## Lexemes with gaps between them -/

/-- The lexemes one after the other with a gap between any two of them. -/
def spread (gap : List Char) (ls : List Lexeme) : List Char :=
  gap.intercalate (ls.map fun l => l.written.toList)

section Spread

variable {gap : List Char} {ls : List Lexeme} {cs : List Char}

/-- What stands behind the first lexeme does not begin with a letter. -/
theorem exists_spread_cons (hgap : IsGap gap) (hne : gap ≠ []) (l : Lexeme)
    (h : Layout ls (spread gap ls)) :
    ∃ rest, spread gap (l :: ls) = l.written.toList ++ rest ∧ Layout ls rest ∧
      letterNext rest = false := by
  cases ls with
  | nil => exact ⟨[], by simp [spread], .nil, rfl⟩
  | cons l' ls =>
    refine ⟨gap ++ spread gap (l' :: ls), ?_, hgap.layout h,
      hgap.letterNext_append fun hnil => absurd hnil hne⟩
    simp only [spread, List.map_cons, List.intercalate_cons_cons, List.append_assoc]

/-- With a gap between any two of them the lexemes of a text are laid out again. -/
theorem layout_spread (hgap : IsGap gap) (hne : gap ≠ []) (h : Layout ls cs) :
    Layout ls (spread gap ls) := by
  induction h with
  | nil => exact .nil
  | blank _ _ ih => exact ih
  | @char c ls cs hc hblank _ ih =>
    obtain ⟨rest, heq, hrest, -⟩ := exists_spread_cons hgap hne (.char c) ih
    rw [heq]
    simpa [Lexeme.written] using Layout.char hc hblank hrest
  | @symbol c ls cs hc _ ih =>
    obtain ⟨rest, heq, hrest, -⟩ := exists_spread_cons hgap hne (.control (.singleton c)) ih
    rw [heq]
    simpa [Lexeme.written] using Layout.symbol hc hrest
  | @word letters ls cs hnonempty hletters _ _ ih =>
    obtain ⟨rest, heq, hrest, hnext⟩ :=
      exists_spread_cons hgap hne (.control (.ofList letters)) ih
    rw [heq]
    simpa [Lexeme.written] using Layout.word hnonempty hletters hnext hrest
  | lone =>
    -- Nothing follows the backslash, as it was the last lexeme of the text.
    simpa [spread, Lexeme.written] using Layout.lone

end Spread

/-! ## A gap at a place -/

/-- There is a place for blanks between the front and the back of a text: no lexeme is cut in two, and
one stands behind the place. Every place between two lexemes is of this kind. -/
def PlaceBetween (front back : List Char) : Prop :=
  ∃ ps qs, pieces (front ++ back) = ps ++ qs ∧ ps.flatMap Piece.chars = front ∧
    ∃ l, .lexeme l ∈ qs

/-- A piece that was cut from a text can stand in front of another layout as well, unless it is a word
and a letter follows, or a backslash that was the end of the text. -/
theorem layout_cut_append {c : Char} {cs rest : List Char} {ps : List Piece}
    (hne : (Piece.cut c cs).2 ≠ [])
    (hnext : letterNext (Piece.cut c cs).2 = false → letterNext rest = false)
    (h : Layout (ps.filterMap Piece.lexeme?) rest) :
    Layout (((Piece.cut c cs).1 :: ps).filterMap Piece.lexeme?)
      ((Piece.cut c cs).1.chars ++ rest) := by
  revert hne hnext
  refine Piece.cut_cases
    (P := fun _ _ piece behind => behind ≠ [] →
      (letterNext behind = false → letterNext rest = false) →
      Layout ((piece :: ps).filterMap Piece.lexeme?) (piece.chars ++ rest))
    ?lone ?word ?symbol ?skipped ?char c cs
  case lone => exact fun hne => absurd rfl hne
  case word =>
    intro letters behind hnonempty hletters hbehind _ hnext
    simpa [Piece.chars, Piece.lexeme?, Lexeme.written] using
      Layout.word hnonempty hletters (hnext hbehind) h
  case symbol =>
    intro d ds hd _ _
    simpa [Piece.chars, Piece.lexeme?, Lexeme.written] using Layout.symbol hd h
  case skipped => exact fun b cs _ hblank _ _ => .blank hblank h
  case char =>
    intro c cs hc hblank _ _
    simpa [Piece.chars, Piece.lexeme?, Lexeme.written] using Layout.char hc hblank h

/-- Blanks behind some of the pieces of a text, in front of a lexeme, leave the lexemes as they are. -/
theorem layout_insert {gap : List Char} (hgap : IsGap gap) {l : Lexeme} {qs : List Piece}
    (hl : .lexeme l ∈ qs) {ps : List Piece} :
    ∀ {cs : List Char}, pieces cs = ps ++ qs →
      Layout (lexemesOf cs) (ps.flatMap Piece.chars ++ (gap ++ qs.flatMap Piece.chars)) := by
  -- The induction follows the pieces in front of the gap, each of which is a cut from the text.
  induction ps with
  | nil =>
    intro cs h
    rw [List.nil_append] at h
    rw [← h, Piece.flatMap_chars]
    exact hgap.layout (layout_lexemesOf cs)
  | cons p ps ih =>
    intro cs h
    cases cs with
    | nil =>
      rw [pieces] at h
      cases h
    | cons c cs =>
      rw [pieces, List.cons_append] at h
      obtain ⟨rfl, hrest⟩ := List.cons.inj h
      have hbehind : (Piece.cut c cs).2 = ps.flatMap Piece.chars ++ qs.flatMap Piece.chars := by
        rw [← List.flatMap_append, ← hrest, Piece.flatMap_chars]
      rw [lexemesOf, pieces, List.flatMap_cons, List.append_assoc]
      refine layout_cut_append (fun hnil => ?_) (fun hnext => ?_) (ih hrest)
      · rw [hnil, pieces] at hrest
        have hqs := (List.append_eq_nil_iff.1 hrest.symm).2
        exact absurd (hqs ▸ hl) List.not_mem_nil
      · rw [hbehind] at hnext
        cases hfront : ps.flatMap Piece.chars with
        | nil =>
          rw [hfront] at hnext
          exact hgap.letterNext_append fun _ => hnext
        | cons d ds =>
          rw [hfront] at hnext
          exact hnext

/-! ## The outcome of parsing -/

namespace Formula

variable {table : Table} {text text' : String}

/-- What becomes of a text with a limit of depth depends on its tokens alone. -/
theorem parseWithin_congr (h : tokenize table text' = tokenize table text) (depth : Nat) :
    parseWithin depth table text' = parseWithin depth table text := by
  have hblank : text'.toList.all Text.isBlank = text.toList.all Text.isBlank := by
    rw [Bool.eq_iff_iff, ← @tokenize_eq_nil_iff table text', h, tokenize_eq_nil_iff]
  rw [parseWithin, parseWithin, h, hblank]

/-- What becomes of a text depends on its tokens alone, although longer texts may be read deeper. -/
theorem parse_congr (h : tokenize table text' = tokenize table text) :
    parse table text' = parse table text := by
  rcases parseWithin_eq_or_tooDeep (text'.length + 1) table text with hdeep | hsame
  · -- No text is too deep for the limit that its length allows.
    rw [← parseWithin_congr h] at hdeep
    rcases exists_outcome table text' with ⟨f, hparse⟩ | ⟨error, hparse⟩
    · rw [parse, hdeep] at hparse
      cases hparse
    · rw [parse, hdeep] at hparse
      cases hparse
  · rw [← hsame, ← parseWithin_congr h]
    rfl

end Formula

/-! ## Spacing -/

/-- The texts have the same tokens, and the same formula or the same error comes of them, with any
limit of depth and without. -/
structure ReadsAlike (table : Table) (text text' : String) : Prop where
  tokenize_eq : tokenize table text' = tokenize table text
  parse_eq : Formula.parse table text' = Formula.parse table text
  parseWithin_eq : ∀ depth,
    Formula.parseWithin depth table text' = Formula.parseWithin depth table text

/-- Any layout of the lexemes of a text is read like the text. -/
theorem readsAlike_of_layout (table : Table) {text text' : String}
    (h : Layout (lexemesOf text.toList) text'.toList) : ReadsAlike table text text' := by
  have htokens : tokenize table text' = tokenize table text := by
    rw [tokenize_of_layout h, tokenize_of_layout (layout_lexemesOf text.toList)]
  exact ⟨htokens, Formula.parse_congr htokens, Formula.parseWithin_congr htokens⟩

/-- The tokens of a text, written with blanks between them, are read like the text, and so is the text
with blanks put in between two of its tokens. -/
theorem spacing_immaterial (table : Table) (text : String) :
    (∀ gap : String, gap ≠ "" → IsGap gap.toList →
      ReadsAlike table text (gap.intercalate ((tokenize table text).map Token.written))) ∧
    ∀ front back gap : String, text = front ++ back → PlaceBetween front.toList back.toList →
      IsGap gap.toList → ReadsAlike table text (front ++ gap ++ back) := by
  constructor
  · intro gap hne hgap
    have hne' : gap.toList ≠ [] := by simpa using hne
    -- Under any table a token is written as the lexeme that it was made of.
    have hwritten : ((tokenize table text).map Token.written).map String.toList =
        (lexemesOf text.toList).map fun l => l.written.toList := by
      rw [tokenize, Lexeme.scan_eq_lexemesOf, List.map_map, List.map_map]
      simp only [Function.comp_def, Token.written, Token.lexeme_ofLexeme]
    apply readsAlike_of_layout
    rw [String.toList_intercalate, hwritten]
    exact layout_spread hgap hne' (layout_lexemesOf text.toList)
  · rintro front back gap rfl ⟨ps, qs, hpieces, hfront, l, hl⟩ hgap
    have hback : qs.flatMap Piece.chars = back.toList := by
      have hall := Piece.flatMap_chars (front.toList ++ back.toList)
      rw [hpieces, List.flatMap_append, hfront] at hall
      exact List.append_cancel_left hall
    apply readsAlike_of_layout
    have hlayout := layout_insert hgap hl hpieces
    rw [hfront, hback] at hlayout
    simpa only [String.toList_append, List.append_assoc] using hlayout

/-- In `\\neg\\ x` the blank is part of a symbol. Behind it there is a place for blanks. -/
theorem spacing_immaterial_symbol :
    PlaceBetween "\\neg\\ ".toList "x".toList ∧ IsGap "\t ".toList ∧
      ReadsAlike Table.standard "\\neg\\ x" "\\neg\\ \t x" ∧
      ReadsAlike Table.standard "\\neg\\ x" "\\neg\t \\ \t x" := by
  have hpieces : pieces ("\\neg\\ ".toList ++ "x".toList) =
      [.lexeme (.control "neg"), .lexeme (.control " ")] ++ [.lexeme (.char 'x')] := by
    decide +kernel
  have hplace : PlaceBetween "\\neg\\ ".toList "x".toList :=
    ⟨_, _, hpieces, by decide, .char 'x', List.mem_singleton_self _⟩
  have hgap : IsGap "\t ".toList := by
    intro b hb
    have hcases : b = '\t' ∨ b = ' ' := by simpa using hb
    rcases hcases with rfl | rfl
    · decide
    · decide
  obtain ⟨hspread, hinsert⟩ := spacing_immaterial Table.standard "\\neg\\ x"
  have hwritten : (tokenize Table.standard "\\neg\\ x").map Token.written =
      ["\\neg", "\\ ", "x"] := by decide +kernel
  have hspread := hspread "\t " (by decide) hgap
  rw [hwritten] at hspread
  exact ⟨hplace, hgap, hinsert "\\neg\\ " "x" "\t " (by decide) hplace hgap, hspread⟩

end LatexLogic
