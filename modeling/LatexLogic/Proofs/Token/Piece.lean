import LatexLogic.Token.Scan
import Mathlib.Data.List.Infix
import Mathlib.Data.List.TakeWhile

/-!
# Pieces of a text

Splitting a text, said without the states of the scanner. From the left, the longest piece is cut off
that can stand there (`Piece.cut`): a backslash with all letters that follow it, or else with the one
character that follows it, whatever that is; a backslash alone at the end; a blank, which is skipped;
or one character. The pieces are the text, cut up (`Piece.flatMap_chars`), and only blanks are skipped
(`Piece.isBlank_of_skipped_mem`).
-/

set_option autoImplicit false

namespace LatexLogic

/-- A letter stands next. -/
def letterNext : List Char → Bool
  | [] => false
  | c :: _ => isControlLetter c

/-- No letter stands next behind all letters at the front. -/
theorem letterNext_dropWhile (cs : List Char) :
    letterNext (cs.dropWhile isControlLetter) = false := by
  cases hrest : cs.dropWhile isControlLetter with
  | nil => rfl
  | cons c rest =>
    have hhead := List.head?_dropWhile_not isControlLetter cs
    rw [hrest] at hhead
    simpa [letterNext] using hhead

/-- A blank is no letter. -/
theorem isControlLetter_of_isBlank {c : Char} (h : Text.isBlank c = true) :
    isControlLetter c = false := by
  simp only [Text.isBlank, Text.blankRanges, List.any_cons, List.any_nil, Bool.or_false,
    Bool.or_eq_true, Bool.and_eq_true, decide_eq_true_eq] at h
  simp only [isControlLetter, Bool.or_eq_false_iff, Bool.and_eq_false_iff, decide_eq_false_iff_not,
    Char.le_def, UInt32.le_iff_toNat_le]
  have ha : ('a').val.toNat = 97 := rfl
  have hz : ('z').val.toNat = 122 := rfl
  have hA : ('A').val.toNat = 65 := rfl
  have hZ : ('Z').val.toNat = 90 := rfl
  have hc : c.toNat = c.val.toNat := rfl
  omega

/-! ## Cutting -/

/-- A piece of a text: a lexeme, or a blank that is skipped. -/
inductive Piece where
  | lexeme (l : Lexeme)
  | skipped (b : Char)
  deriving DecidableEq, Repr

namespace Piece

/-- The characters of a piece. -/
def chars : Piece → List Char
  | lexeme l => l.written.toList
  | skipped b => [b]

/-- The lexeme that a piece is. -/
def lexeme? : Piece → Option Lexeme
  | lexeme l => some l
  | skipped _ => none

/-- The characters of a piece that are not skipped. -/
def kept : Piece → List Char
  | lexeme l => l.written.toList
  | skipped _ => []

/-- The piece at the front of a text that is not empty, and the text behind it. -/
def cut (c : Char) (cs : List Char) : Piece × List Char :=
  if c = '\\' then
    match cs with
    | [] => (.lexeme (.control ""), [])
    | d :: ds =>
      if isControlLetter d then
        (.lexeme (.control (String.ofList ((d :: ds).takeWhile isControlLetter))),
          (d :: ds).dropWhile isControlLetter)
      else (.lexeme (.control (String.singleton d)), ds)
  else if Text.isBlank c then (.skipped c, cs)
  else (.lexeme (.char c), cs)

/-- The cases of a cut, each with what is known of the text. -/
theorem cut_cases {P : Char → List Char → Piece → List Char → Prop}
    (lone : P '\\' [] (.lexeme (.control "")) [])
    (word : ∀ letters rest, letters ≠ [] → (∀ c ∈ letters, isControlLetter c = true) →
      letterNext rest = false →
      P '\\' (letters ++ rest) (.lexeme (.control (String.ofList letters))) rest)
    (symbol : ∀ d ds, isControlLetter d = false →
      P '\\' (d :: ds) (.lexeme (.control (String.singleton d))) ds)
    (skipped : ∀ b cs, b ≠ '\\' → Text.isBlank b = true → P b cs (.skipped b) cs)
    (char : ∀ c cs, c ≠ '\\' → Text.isBlank c = false → P c cs (.lexeme (.char c)) cs)
    (c : Char) (cs : List Char) : P c cs (cut c cs).1 (cut c cs).2 := by
  unfold cut
  split
  · next hc =>
    subst hc
    cases cs with
    | nil => exact lone
    | cons d ds =>
      dsimp only
      split
      · next hd =>
        -- The first letter is known, so the word is not empty.
        have hne : (d :: ds).takeWhile isControlLetter ≠ [] := by
          rw [List.takeWhile_cons_of_pos hd]
          exact List.cons_ne_nil _ _
        have hword := word ((d :: ds).takeWhile isControlLetter)
          ((d :: ds).dropWhile isControlLetter) hne (fun c hc => List.mem_takeWhile_imp hc)
          (letterNext_dropWhile (d :: ds))
        rwa [List.takeWhile_append_dropWhile] at hword
      · next hd => exact symbol d ds (Bool.eq_false_iff.2 hd)
  · next hc =>
    split
    · next hblank => exact skipped c cs hc hblank
    · next hblank => exact char c cs hc (Bool.eq_false_iff.2 hblank)

/-- A cut takes characters off the front and loses none. -/
theorem chars_cut (c : Char) (cs : List Char) : (cut c cs).1.chars ++ (cut c cs).2 = c :: cs := by
  refine cut_cases (P := fun c cs piece rest => piece.chars ++ rest = c :: cs)
    ?lone ?word ?symbol ?skipped ?char c cs
  case lone => rfl
  case word =>
    intro letters rest _ _ _
    simp [chars, Lexeme.written]
  case symbol =>
    intro d ds _
    simp [chars, Lexeme.written]
  case skipped =>
    intro b cs _ _
    rfl
  case char =>
    intro c cs _ _
    simp [chars, Lexeme.written]

theorem chars_ne_nil (piece : Piece) : piece.chars ≠ [] := by
  cases piece with
  | lexeme l => cases l <;> simp [chars, Lexeme.written]
  | skipped b => exact List.cons_ne_nil _ _

theorem length_cut (c : Char) (cs : List Char) : (cut c cs).2.length < (c :: cs).length := by
  have hpos := List.length_pos_iff.2 (chars_ne_nil (cut c cs).1)
  rw [← chars_cut c cs, List.length_append]
  omega

end Piece

/-- The pieces of a text. -/
def pieces : List Char → List Piece
  | [] => []
  | c :: cs => (Piece.cut c cs).1 :: pieces (Piece.cut c cs).2
termination_by cs => cs.length
decreasing_by exact Piece.length_cut c cs

/-- The lexemes among the pieces of a text. -/
def lexemesOf (cs : List Char) : List Lexeme :=
  (pieces cs).filterMap Piece.lexeme?

namespace Piece

/-- The pieces are the text, cut up. -/
theorem flatMap_chars (cs : List Char) : (pieces cs).flatMap chars = cs := by
  fun_induction pieces cs with
  | case1 => rfl
  | case2 c cs ih => rw [List.flatMap_cons, ih, chars_cut]

/-- Only blanks are skipped. -/
theorem isBlank_of_skipped_mem {cs : List Char} {b : Char} (h : skipped b ∈ pieces cs) :
    Text.isBlank b = true := by
  -- The induction is on the cuts; only one case of a cut skips anything.
  fun_induction pieces cs with
  | case1 => cases h
  | case2 c cs ih =>
    rcases List.mem_cons.1 h with hcut | hrest
    · refine cut_cases (P := fun _ _ piece _ => skipped b = piece → Text.isBlank b = true)
        ?lone ?word ?symbol ?skipped ?char c cs hcut
      case skipped =>
        rintro _ _ _ hblank ⟨⟩
        exact hblank
      all_goals intros; contradiction
    · exact ih hrest

/-- What is kept of a text is what its lexemes say. -/
theorem flatMap_kept (ps : List Piece) :
    ps.flatMap kept = (ps.filterMap lexeme?).flatMap fun l => l.written.toList := by
  induction ps with
  | nil => rfl
  | cons p ps ih =>
    cases p with
    | lexeme l => rw [List.flatMap_cons, ih]; rfl
    | skipped b => rw [List.flatMap_cons, ih]; rfl

end Piece

end LatexLogic
