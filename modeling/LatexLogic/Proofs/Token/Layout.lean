import LatexLogic.Proofs.Token.Piece

/-!
# Layouts

How a list of lexemes can be laid out as a text, said without the states of the scanner
(`Layout`): blanks may stand in front of every lexeme and at the end, and a control word is not
followed by a letter. Every text is a layout of the lexemes among its pieces (`layout_lexemesOf`), and
scanning takes exactly the lexemes that a text is a layout of (`layout_iff_scan_eq`).
-/

set_option autoImplicit false

namespace LatexLogic

/-- The text is made of the lexemes in this order, with blanks between them. -/
inductive Layout : List Lexeme → List Char → Prop where
  | nil : Layout [] []
  | blank {b : Char} {ls : List Lexeme} {cs : List Char} :
      Text.isBlank b = true → Layout ls cs → Layout ls (b :: cs)
  | char {c : Char} {ls : List Lexeme} {cs : List Char} :
      c ≠ '\\' → Text.isBlank c = false → Layout ls cs → Layout (.char c :: ls) (c :: cs)
  | symbol {c : Char} {ls : List Lexeme} {cs : List Char} :
      isControlLetter c = false → Layout ls cs →
      Layout (.control (String.singleton c) :: ls) ('\\' :: c :: cs)
  | word {letters : List Char} {ls : List Lexeme} {cs : List Char} :
      letters ≠ [] → (∀ c ∈ letters, isControlLetter c = true) → letterNext cs = false →
      Layout ls cs → Layout (.control (String.ofList letters) :: ls) ('\\' :: (letters ++ cs))
  /-- A backslash at the end of the text stands alone. -/
  | lone : Layout [.control ""] ['\\']

namespace Lexeme

/-! ## Scanning -/

theorem isBlank_backslash : Text.isBlank '\\' = false := by decide

/-- The letters of a word are collected. -/
theorem scanControl_append {letters : List Char} (h : ∀ c ∈ letters, isControlLetter c = true) :
    ∀ (before cs : List Char),
      scanControl before (letters ++ cs) = scanControl (letters.reverse ++ before) cs := by
  induction letters with
  | nil =>
    intro before cs
    rfl
  | cons c letters ih =>
    intro before cs
    rw [List.cons_append, scanControl, if_pos (h c List.mem_cons_self),
      ih fun d hd => h d (List.mem_cons_of_mem _ hd)]
    simp

/-- A word ends where no letter stands next. -/
theorem scanControl_of_letterNext {before cs : List Char} (hbefore : before ≠ [])
    (hnext : letterNext cs = false) :
    scanControl before cs = .control (String.ofList before.reverse) :: scan cs := by
  cases cs with
  | nil => rfl
  | cons c cs =>
    have hc : ¬ isControlLetter c = true := by simpa [letterNext] using hnext
    have hempty : ¬ before.isEmpty = true := by simpa using hbefore
    rw [scanControl, if_neg hc, if_neg hempty, scan]

theorem scan_backslash (cs : List Char) : scan ('\\' :: cs) = scanControl [] cs := by
  rw [scan, if_pos rfl]

theorem scan_word {letters cs : List Char} (hne : letters ≠ [])
    (hletters : ∀ c ∈ letters, isControlLetter c = true) (hnext : letterNext cs = false) :
    scan ('\\' :: (letters ++ cs)) = .control (String.ofList letters) :: scan cs := by
  rw [scan_backslash, scanControl_append hletters, List.append_nil,
    scanControl_of_letterNext (by simpa using hne) hnext, List.reverse_reverse]

theorem scan_symbol {c : Char} (hc : isControlLetter c = false) (cs : List Char) :
    scan ('\\' :: c :: cs) = .control (String.singleton c) :: scan cs := by
  rw [scan_backslash, scanControl, if_neg (by simp [hc]), if_pos List.isEmpty_nil]

/-- A layout is scanned as the lexemes that it is made of. -/
theorem scan_of_layout {ls : List Lexeme} {cs : List Char} (h : Layout ls cs) : scan cs = ls := by
  induction h with
  | nil => rfl
  | blank hb _ ih =>
    have hne : ∀ {b : Char}, Text.isBlank b = true → b ≠ '\\' := by
      rintro b hb rfl
      rw [isBlank_backslash] at hb
      cases hb
    rw [scan, if_neg (hne hb), if_pos hb, ih]
  | char hc hblank _ ih => rw [scan, if_neg hc, if_neg (by simp [hblank]), ih]
  | symbol hc _ ih => rw [scan_symbol hc, ih]
  | word hne hletters hnext _ ih => rw [scan_word hne hletters hnext, ih]
  | lone => rfl

end Lexeme

/-- A text is laid out from the lexemes among its pieces. -/
theorem layout_lexemesOf (cs : List Char) : Layout (lexemesOf cs) cs := by
  unfold lexemesOf
  fun_induction pieces cs with
  | case1 => exact .nil
  | case2 c cs ih =>
    revert ih
    -- Each outcome of a cut is a way in which a text is laid out.
    refine Piece.cut_cases
      (P := fun c cs piece rest => Layout ((pieces rest).filterMap Piece.lexeme?) rest →
        Layout ((piece :: pieces rest).filterMap Piece.lexeme?) (c :: cs))
      ?lone ?word ?symbol ?skipped ?char c cs
    case lone =>
      intro _
      rw [pieces]
      exact .lone
    case word => exact fun letters rest hne hletters hnext ih => .word hne hletters hnext ih
    case symbol => exact fun d ds hd ih => .symbol hd ih
    case skipped => exact fun b cs _ hblank ih => .blank hblank ih
    case char => exact fun c cs hc hblank ih => .char hc hblank ih

/-- Scanning a text gives the lexemes that it is a layout of, and no others. -/
theorem layout_iff_scan_eq {ls : List Lexeme} {cs : List Char} :
    Layout ls cs ↔ Lexeme.scan cs = ls := by
  constructor
  · exact Lexeme.scan_of_layout
  · rintro rfl
    rw [Lexeme.scan_of_layout (layout_lexemesOf cs)]
    exact layout_lexemesOf cs

/-- The scanner, which goes back to no earlier character, finds the lexemes among the pieces. -/
theorem Lexeme.scan_eq_lexemesOf (cs : List Char) : scan cs = lexemesOf cs :=
  scan_of_layout (layout_lexemesOf cs)

/-- Layouts are put one after the other, unless the first ends with a backslash alone, or with a
word that the second would carry on. -/
theorem Layout.append {ls ls' : List Lexeme} {cs cs' : List Char} (h : Layout ls cs)
    (hlone : Lexeme.control "" ∉ ls) (h' : Layout ls' cs') (hnext : letterNext cs' = false) :
    Layout (ls ++ ls') (cs ++ cs') := by
  induction h with
  | nil => exact h'
  | blank hb _ ih => exact .blank hb (ih hlone)
  | char hc hblank _ ih => exact .char hc hblank (ih fun hmem => hlone (.tail _ hmem))
  | symbol hc _ ih => exact .symbol hc (ih fun hmem => hlone (.tail _ hmem))
  | @word letters ls cs hne hletters hword _ ih =>
    rw [List.cons_append, List.cons_append, List.append_assoc]
    have hword' : letterNext (cs ++ cs') = false := by
      cases cs with
      | nil => exact hnext
      | cons c cs => exact hword
    exact .word hne hletters hword' (ih fun hmem => hlone (.tail _ hmem))
  | lone => exact absurd List.mem_cons_self hlone

/-! ## Writing -/

/-- The lexemes that can stand in a text. -/
inductive Lexeme.Writable : Lexeme → Prop where
  | char {c : Char} : c ≠ '\\' → Text.isBlank c = false → Writable (.char c)
  | symbol {c : Char} : isControlLetter c = false → Writable (.control (String.singleton c))
  | word {letters : List Char} : letters ≠ [] → (∀ c ∈ letters, isControlLetter c = true) →
      Writable (.control (String.ofList letters))

/-- Writable lexemes have a layout: a blank after every word keeps the words apart. -/
theorem exists_layout {ls : List Lexeme} (h : ∀ l ∈ ls, l.Writable) : ∃ cs, Layout ls cs := by
  induction ls with
  | nil => exact ⟨[], .nil⟩
  | cons l ls ih =>
    obtain ⟨cs, hcs⟩ := ih fun l' hl' => h l' (List.mem_cons_of_mem _ hl')
    cases h l List.mem_cons_self with
    | char hc hblank => exact ⟨_, .char hc hblank hcs⟩
    | symbol hc => exact ⟨_, .symbol hc hcs⟩
    | word hne hletters =>
      have hspace : Text.isBlank ' ' = true := by decide
      have hnext : letterNext (' ' :: cs) = false := show isControlLetter ' ' = false by decide
      exact ⟨_, .word hne hletters hnext (.blank hspace hcs)⟩

/-- The tokens of a layout are the meanings of its lexemes. -/
theorem tokenize_of_layout {ls : List Lexeme} {text : String} (h : Layout ls text.toList)
    (table : Table) : tokenize table text = ls.map (Token.ofLexeme table) := by
  rw [tokenize, Lexeme.scan_of_layout h]

/-! ## Length -/

/-- A layout has no more lexemes than characters. -/
theorem Layout.length_le {ls : List Lexeme} {cs : List Char} (h : Layout ls cs) :
    ls.length ≤ cs.length := by
  induction h with
  | nil => exact le_rfl
  | blank _ _ ih => exact ih.trans (Nat.le_succ _)
  | char _ _ _ ih => exact Nat.succ_le_succ ih
  | symbol _ _ ih => exact Nat.succ_le_succ (Nat.le_succ_of_le ih)
  | word _ _ _ _ ih =>
    simp only [List.length_cons, List.length_append]
    omega
  | lone => exact le_rfl

/-- No text has more tokens than characters. -/
theorem length_tokenize_le (table : Table) (text : String) :
    (tokenize table text).length ≤ text.length := by
  rw [tokenize, List.length_map, ← String.length_toList]
  exact (layout_iff_scan_eq.2 rfl).length_le

end LatexLogic
