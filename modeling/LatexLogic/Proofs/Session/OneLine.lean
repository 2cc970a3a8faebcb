import LatexLogic.Data.Json
import Mathlib.Tactic.SplitIfs

/-!
# Texts of one line

A text stays on one line if no line feed is in it (`Text.IsOneLine`). Quoting and the JSON form write a
line feed as an escape, so what they make of a text is on one line whatever the text holds
(`Text.isOneLine_quoted`, `Data.isOneLine_jsonText`). Numerals hold digits, signs, a point and the
letter of an exponent. So the JSON form of every value is on one line (`Data.isOneLine_json`).
-/

set_option autoImplicit false

namespace LatexLogic

namespace Text

/-- No line ends inside the text. -/
def IsOneLine (text : String) : Prop :=
  '\n' ∉ text.toList

instance : DecidablePred IsOneLine := fun text =>
  inferInstanceAs (Decidable ('\n' ∉ text.toList))

variable {s t : String}

@[simp] theorem isOneLine_append : IsOneLine (s ++ t) ↔ IsOneLine s ∧ IsOneLine t := by
  simp only [IsOneLine, String.toList_append, List.mem_append, not_or]

@[simp] theorem isOneLine_ofList {cs : List Char} : IsOneLine (String.ofList cs) ↔ '\n' ∉ cs := by
  rw [IsOneLine, String.toList_ofList]

theorem isOneLine_intercalate {separator : String} {parts : List String}
    (hseparator : IsOneLine separator) (hparts : ∀ part ∈ parts, IsOneLine part) :
    IsOneLine (String.intercalate separator parts) := by
  induction parts with
  | nil => simp [IsOneLine]
  | cons part parts ih =>
    obtain ⟨hpart, hparts⟩ := List.forall_mem_cons.1 hparts
    cases parts with
    | nil => simpa using hpart
    | cons next parts =>
      rw [String.intercalate_cons_cons, isOneLine_append, isOneLine_append]
      exact ⟨⟨hpart, hseparator⟩, ih hparts⟩

/-! ## Numerals -/

theorem notMem_toDigits (n : Nat) : '\n' ∉ Nat.toDigits 10 n := by
  intro h
  exact absurd (Nat.isDigit_of_mem_toDigits (by decide) (by decide) h) (by decide)

theorem isOneLine_repr (n : Nat) : IsOneLine n.repr := by
  rw [IsOneLine, Nat.toList_repr]
  exact notMem_toDigits n

theorem isOneLine_toString (n : Int) : IsOneLine (toString n) := by
  cases n with
  | ofNat n => exact isOneLine_repr n
  | negSucc n => exact isOneLine_append.2 ⟨by decide, isOneLine_repr (n + 1)⟩

/-! ## Quoted texts -/

theorem hexDigit_ne (n : Nat) : hexDigit n ≠ '\n' := by
  have h : ∀ digit < 16, Nat.digitChar digit ≠ '\n' := by decide
  exact h (n % 16) (Nat.mod_lt n (by decide))

theorem notMem_hexDigits (width n : Nat) : '\n' ∉ hexDigits width n := by
  induction width generalizing n with
  | zero => exact List.not_mem_nil
  | succ width ih =>
    rw [hexDigits, List.mem_append, List.mem_singleton, not_or]
    exact ⟨ih (n / 16), (hexDigit_ne n).symm⟩

theorem notMem_codePointEscape (c : Char) : '\n' ∉ codePointEscape c := by
  unfold codePointEscape
  dsimp only
  split_ifs <;> simp [notMem_hexDigits]

/-- Quotes aside, no character of a quoted text is a line feed. -/
theorem notMem_quotedChar {quote : Char} (hquote : quote ≠ '\n') (c : Char) :
    '\n' ∉ quotedChar quote c := by
  unfold quotedChar quotedCharWhere
  split_ifs with hescaped hfeed hreturn htab hplain
  · -- Escaped are the quote and the backslash, and neither is a line feed.
    simp only [Bool.or_eq_true, decide_eq_true_eq] at hescaped
    rcases hescaped with rfl | rfl
    · simpa using hquote.symm
    · decide
  · decide
  · decide
  · decide
  · simpa using Ne.symm hfeed
  · exact notMem_codePointEscape c

theorem enclosingQuote_ne (cs : List Char) : enclosingQuote cs ≠ '\n' := by
  unfold enclosingQuote
  split_ifs <;> decide

/-- A quoted text is on one line. -/
theorem isOneLine_quoted (text : String) : IsOneLine (quoted text) := by
  have hquote := enclosingQuote_ne text.toList
  rw [quoted, isOneLine_ofList, quotedChars]
  simp only [List.mem_append, List.mem_cons, List.mem_flatMap, List.not_mem_nil, or_false, not_or,
    not_exists, not_and]
  exact ⟨⟨hquote.symm, fun c _ => notMem_quotedChar hquote c⟩, hquote.symm⟩

end Text

/-! ## Binary64 numbers -/

namespace Binary64

theorem notMem_exponentText (n : Int) : '\n' ∉ exponentText n := by
  have hdigits := Text.notMem_toDigits n.natAbs
  unfold exponentText
  dsimp only
  split_ifs <;> simp [hdigits]

theorem notMem_layout {digits : List Char} (h : '\n' ∉ digits) (point : Int) :
    '\n' ∉ layout digits point := by
  have htake (n : Nat) : '\n' ∉ digits.take n := fun hmem => h (List.mem_of_mem_take hmem)
  have hdrop (n : Nat) : '\n' ∉ digits.drop n := fun hmem => h (List.mem_of_mem_drop hmem)
  have htail : '\n' ∉ digits.tail := fun hmem => h (List.mem_of_mem_tail hmem)
  unfold layout
  dsimp only
  split_ifs <;> simp [h, htake, hdrop, htail, notMem_exponentText]

theorem notMem_places (d : Decimal) : '\n' ∉ d.places.1 := by
  intro h
  -- The places are digits from which zeros at the end are dropped.
  have hkept := (List.dropWhile_sublist _).mem (List.mem_reverse.1 h)
  exact Text.notMem_toDigits d.digits (List.mem_reverse.1 hkept)

theorem isOneLine_text (x : Binary64) : Text.IsOneLine x.text := by
  have hsign : Text.IsOneLine (if x.isNegative then "-" else "") := by
    split_ifs <;> decide
  unfold text
  dsimp only
  split
  · decide
  · exact Text.isOneLine_append.2 ⟨hsign, by decide⟩
  · exact Text.isOneLine_append.2 ⟨hsign, by decide⟩
  · exact Text.isOneLine_append.2
      ⟨hsign, Text.isOneLine_ofList.2 (notMem_layout (notMem_places _) _)⟩

end Binary64

/-! ## JSON forms -/

namespace Data

theorem notMem_jsonChar (c : Char) : '\n' ∉ jsonChar c := by
  unfold jsonChar
  split_ifs with _ _ hfeed
  all_goals try decide
  -- What is left are the other control characters and the characters that stand for themselves.
  · simp [Text.notMem_hexDigits]
  · simpa using Ne.symm hfeed

theorem isOneLine_jsonText (text : String) : Text.IsOneLine (jsonText text) := by
  rw [jsonText, Text.isOneLine_ofList]
  simp [notMem_jsonChar]

theorem isOneLine_jsonFloat (x : Binary64) : Text.IsOneLine (jsonFloat x) := by
  unfold jsonFloat
  split
  · decide
  · split_ifs <;> decide
  · exact Binary64.isOneLine_text x

theorem isOneLine_bracketed {parts : List String} (h : ∀ part ∈ parts, Text.IsOneLine part) :
    Text.IsOneLine ("[" ++ String.intercalate ", " parts ++ "]") := by
  have hparts := Text.isOneLine_intercalate (show Text.IsOneLine ", " by decide) h
  simp only [Text.isOneLine_append]
  exact ⟨⟨by decide, hparts⟩, by decide⟩

mutual

/-- The JSON form of a value is on one line. -/
theorem isOneLine_json : (value : Data) → Text.IsOneLine value.json
  | .null => by decide
  | .bool b => by cases b <;> decide
  | .int n => Text.isOneLine_toString n
  | .float x => isOneLine_jsonFloat x
  | .text s => isOneLine_jsonText s
  | .list xs => isOneLine_bracketed (isOneLine_jsonItems xs)
  | .set xs => isOneLine_bracketed (isOneLine_jsonItems xs)
  | .pair a b => by
    have ha := isOneLine_json a
    have hb := isOneLine_json b
    simp only [json, Text.isOneLine_append]
    exact ⟨⟨⟨⟨by decide, ha⟩, by decide⟩, hb⟩, by decide⟩
  | .map es => by
    have hentries := Text.isOneLine_intercalate (show Text.IsOneLine ", " by decide)
      (isOneLine_jsonEntries es)
    simp only [json, Text.isOneLine_append]
    exact ⟨⟨by decide, hentries⟩, by decide⟩
  | .timestamp t => isOneLine_jsonText t.text
  | .bytes xs => isOneLine_jsonText (Data.bytes xs).plainText
  | .again isMap => isOneLine_jsonText (Data.again isMap).plainText

theorem isOneLine_jsonItems : (values : List Data) → ∀ part ∈ jsonItems values, Text.IsOneLine part
  | [] => fun _ h => absurd h List.not_mem_nil
  | value :: values =>
    List.forall_mem_cons.2 ⟨isOneLine_json value, isOneLine_jsonItems values⟩

theorem isOneLine_jsonEntries :
    (entries : List (Data × Data)) → ∀ part ∈ jsonEntries entries, Text.IsOneLine part
  | [] => fun _ h => absurd h List.not_mem_nil
  | (key, value) :: entries => by
    have hvalue := isOneLine_json value
    refine List.forall_mem_cons.2 ⟨?_, isOneLine_jsonEntries entries⟩
    simp only [Text.isOneLine_append]
    exact ⟨⟨isOneLine_jsonText key.plainText, by decide⟩, hvalue⟩

end

end Data

end LatexLogic
