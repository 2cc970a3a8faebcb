import LatexLogic.Proofs.Grammar.Sorted

/-!
# Balanced parentheses

Parentheses group what stands between them. A table may give a meaning of its own to the delimiters
or leave them alone (`Table.KeepsDelimiters`, `Token.Plain`). Tokens are balanced if they close each
parenthesis that they open and no other (`Balanced`). The parenthesis that closes a balanced group
is determined by the tokens alone, whatever is read between (`Balanced.unique`).
-/

set_option autoImplicit false

namespace LatexLogic

open Reader

/-! ## Delimiters -/

/-- The texts that have a meaning without a table. -/
def delimiters : List String :=
  ["(", ")", ",", "_", "\x7b", "\x7d", leftWord, rightWord]

/-- The delimiters of which parentheses are made up. -/
def parenTexts : List String :=
  ["(", ")", leftWord, rightWord]

theorem mem_delimiters_of_mem_parenTexts {text : String} (h : text ∈ parenTexts) :
    text ∈ delimiters := by
  simp only [parenTexts, List.mem_cons, List.not_mem_nil, or_false] at h
  simp only [delimiters, List.mem_cons, List.not_mem_nil, or_false]
  tauto

/-- No entry is spelled like a delimiter. -/
def Table.KeepsDelimiters (table : Table) : Prop :=
  ∀ spelling ∈ ["(", ")", ",", "_", "\x7b", "\x7d", "left", "right"], table.get? spelling = none

instance Table.decidableKeepsDelimiters (table : Table) : Decidable table.KeepsDelimiters :=
  decidable_of_iff (∀ spelling ∈ ["(", ")", ",", "_", "\x7b", "\x7d", "left", "right"],
    (table.get? spelling).isNone = true)
    (forall₂_congr fun _ _ => Option.isNone_iff_eq_none)

/-- A table that keeps the delimiters has no entry for any of them. -/
theorem Table.KeepsDelimiters.get?_eq_none {table : Table} (h : table.KeepsDelimiters) {l : Lexeme}
    (hl : l.written ∈ delimiters) : table.get? l.spelling = none := by
  apply h
  simp only [delimiters, List.mem_cons, List.not_mem_nil, or_false] at hl
  simp only [List.mem_cons, List.not_mem_nil, or_false]
  cases l with
  | char c =>
    have hlength : ∀ {text : String}, Lexeme.written (.char c) = text → text.length = 1 := by
      rintro text rfl
      exact String.length_singleton
    have hleft : Lexeme.written (.char c) ≠ leftWord :=
      fun heq => absurd (hlength heq) (by decide)
    have hright : Lexeme.written (.char c) ≠ rightWord :=
      fun heq => absurd (hlength heq) (by decide)
    simp only [hleft, hright, or_false] at hl
    simp only [Lexeme.spelling]
    tauto
  | control name =>
    have hhead : ∀ {text : String}, Lexeme.written (.control name) = text →
        text.toList.head? = some '\\' := by
      rintro text rfl
      simp [Lexeme.written]
    have hword : ∀ {word : String}, Lexeme.written (.control name) = "\\" ++ word → name = word :=
      fun heq => (String.append_right_inj "\\").1 heq
    rcases hl with hl | hl | hl | hl | hl | hl | hl | hl
    case inr.inr.inr.inr.inr.inr.inl =>
      obtain rfl : name = "left" := hword hl
      simp [Lexeme.spelling]
    case inr.inr.inr.inr.inr.inr.inr =>
      obtain rfl : name = "right" := hword hl
      simp [Lexeme.spelling]
    all_goals exact absurd (hhead hl) (by decide)

namespace Token

/-- If the token is a delimiter it has no other meaning. -/
def Plain (t : Token) : Prop :=
  t.written ∈ delimiters → t.construct? = none

theorem plain_ofLexeme {table : Table} (h : table.KeepsDelimiters) (l : Lexeme) :
    (ofLexeme table l).Plain := by
  intro hmem
  rw [written, lexeme_ofLexeme] at hmem
  have hget := h.get?_eq_none hmem
  cases l with
  | char c =>
    dsimp only [Lexeme.spelling] at hget
    simp only [ofLexeme, hget]
    rfl
  | control name =>
    dsimp only [Lexeme.spelling] at hget
    simp only [ofLexeme, hget]
    cases MetaLetter.ofName? name <;> rfl

theorem plain_of_mem_map {table : Table} (h : table.KeepsDelimiters) (ls : List Lexeme) :
    ∀ t ∈ ls.map (ofLexeme table), t.Plain := by
  intro t ht
  obtain ⟨l, -, rfl⟩ := List.mem_map.1 ht
  exact plain_ofLexeme h l

theorem Plain.written_ne {lexeme : Lexeme} {c : Construct} (h : (known lexeme c).Plain)
    {delimiter : String} (hmem : delimiter ∈ delimiters) :
    (known lexeme c).written ≠ delimiter := by
  rintro rfl
  cases h hmem

theorem Plain.notMem_parenTexts {lexeme : Lexeme} {c : Construct} (h : (known lexeme c).Plain) :
    (known lexeme c).written ∉ parenTexts :=
  fun hmem => h.written_ne (mem_delimiters_of_mem_parenTexts hmem) rfl

theorem written_ne_of_notMem_parenTexts {t : Token} (h : t.written ∉ parenTexts) :
    t.written ≠ "(" ∧ t.written ≠ ")" := by
  simp only [parenTexts, List.mem_cons, List.not_mem_nil, or_false, not_or] at h
  exact ⟨h.1, h.2.1⟩

/-- The tokens of which names are made up after their first letter, and that letter. -/
def NamePart (t : Token) : Prop :=
  (∃ c, t = .char c ∧ (isVariableLetter c = true ∨ isDecimalDigit c = true)) ∨
    t.written ∈ ["_", "\x7b", "\x7d"]

/-- No part of a name belongs to a parenthesis. -/
theorem NamePart.notMem_parenTexts {t : Token} (h : t.NamePart) : t.written ∉ parenTexts := by
  simp only [parenTexts, List.mem_cons, List.not_mem_nil, or_false, not_or]
  rcases h with ⟨c, rfl, hc⟩ | hmem
  · have hchar : ∀ {d : Char}, (Token.char c).written = String.singleton d → c = d := by
      intro d heq
      simpa [written, lexeme, Lexeme.written] using congrArg String.toList heq
    have hword : ∀ {word : String}, word.length ≠ 1 → (Token.char c).written ≠ word := by
      rintro word hword rfl
      exact hword String.length_singleton
    refine ⟨fun heq => ?_, fun heq => ?_, hword (by decide), hword (by decide)⟩
    · rw [hchar (d := '(') heq] at hc
      exact absurd hc (by decide)
    · rw [hchar (d := ')') heq] at hc
      exact absurd hc (by decide)
  · simp only [List.mem_cons, List.not_mem_nil, or_false] at hmem
    rcases hmem with heq | heq | heq <;> rw [heq] <;> decide

/-- No part of a name is a parenthesis. -/
theorem NamePart.written_ne {t : Token} (h : t.NamePart) : t.written ≠ "(" ∧ t.written ≠ ")" :=
  written_ne_of_notMem_parenTexts h.notMem_parenTexts

/-- A part of a name has no meaning in a table. -/
theorem NamePart.construct?_eq_none {t : Token} (h : t.NamePart) (hplain : t.Plain) :
    t.construct? = none := by
  rcases h with ⟨c, rfl, -⟩ | hmem
  · rfl
  · refine hplain ?_
    simp only [List.mem_cons, List.not_mem_nil, or_false] at hmem
    simp only [delimiters, List.mem_cons, List.not_mem_nil, or_false]
    tauto

end Token

/-! ## Levels of parentheses -/

/-- How many parentheses are open after some tokens, if that many were open before them and none is
closed that was not open. -/
def parenLevel : Nat → List Token → Option Nat
  | n, [] => some n
  | n, t :: ts =>
    if t.written = "(" then parenLevel (n + 1) ts
    else if t.written = ")" then
      if n = 0 then none else parenLevel (n - 1) ts
    else parenLevel n ts

/-- Tokens that close every parenthesis they open and no other. -/
def Balanced (u : List Token) : Prop :=
  ∀ n, parenLevel n u = some n

/-- Tokens that close no parenthesis that they have not opened. -/
def Unclosed (u : List Token) : Prop :=
  ∀ n, (parenLevel n u).isSome = true

theorem parenLevel_append (u v : List Token) :
    ∀ n, parenLevel n (u ++ v) = (parenLevel n u).bind fun k => parenLevel k v := by
  induction u with
  | nil =>
    intro n
    rfl
  | cons t u ih =>
    intro n
    rw [List.cons_append, parenLevel, parenLevel]
    split
    · exact ih _
    · split
      · split
        · rfl
        · exact ih _
      · exact ih n

theorem parenLevel_cons_of_ne {t : Token} {u : List Token} (hopen : t.written ≠ "(")
    (hclose : t.written ≠ ")") (n : Nat) : parenLevel n (t :: u) = parenLevel n u := by
  rw [parenLevel, if_neg hopen, if_neg hclose]

theorem parenLevel_opening {form : Form} {us : List Token} (h : Opening form us) (n : Nat) :
    parenLevel n us = some (n + 1) := by
  cases h with
  | short ho => rw [parenLevel, if_pos ho, parenLevel]
  | long hl ho =>
    rw [parenLevel_cons_of_ne (by rw [hl]; decide) (by rw [hl]; decide), parenLevel, if_pos ho,
      parenLevel]

theorem parenLevel_closing_succ {form : Form} {vs : List Token} (h : Closing form vs) (n : Nat) :
    parenLevel (n + 1) vs = some n := by
  have hne : ¬ ")" = "(" := by decide
  cases h with
  | short hc =>
    rw [parenLevel, hc, if_neg hne, if_pos rfl, if_neg (Nat.succ_ne_zero n), parenLevel]
    rfl
  | long hr hc =>
    rw [parenLevel_cons_of_ne (by rw [hr]; decide) (by rw [hr]; decide), parenLevel, hc,
      if_neg hne, if_pos rfl, if_neg (Nat.succ_ne_zero n), parenLevel]
    rfl

theorem parenLevel_closing_zero {form : Form} {vs : List Token} (h : Closing form vs) :
    parenLevel 0 vs = none := by
  have hne : ¬ ")" = "(" := by decide
  cases h with
  | short hc => rw [parenLevel, hc, if_neg hne, if_pos rfl, if_pos rfl]
  | long hr hc =>
    rw [parenLevel_cons_of_ne (by rw [hr]; decide) (by rw [hr]; decide), parenLevel, hc,
      if_neg hne, if_pos rfl, if_pos rfl]

section Balanced

variable {u v : List Token} {t : Token}

theorem balanced_nil : Balanced [] := fun _ => rfl

theorem Balanced.append (hu : Balanced u) (hv : Balanced v) : Balanced (u ++ v) := by
  intro n
  rw [parenLevel_append, hu, Option.bind_some, hv]

theorem Balanced.cons (hopen : t.written ≠ "(") (hclose : t.written ≠ ")") (hu : Balanced u) :
    Balanced (t :: u) := by
  intro n
  rw [parenLevel_cons_of_ne hopen hclose, hu]

theorem Balanced.cons_known {lexeme : Lexeme} {c : Construct}
    (hplain : (Token.known lexeme c).Plain) (hu : Balanced u) :
    Balanced (.known lexeme c :: u) :=
  hu.cons (hplain.written_ne (by simp [delimiters])) (hplain.written_ne (by simp [delimiters]))

theorem Balanced.parens {form : Form} {us vs : List Token} (hopen : Opening form us)
    (hclose : Closing form vs) (hu : Balanced u) : Balanced (us ++ (u ++ vs)) := by
  intro n
  rw [parenLevel_append, parenLevel_opening hopen, Option.bind_some, parenLevel_append, hu,
    Option.bind_some, parenLevel_closing_succ hclose]

theorem balanced_of_nameParts (h : ∀ t ∈ u, t.NamePart) : Balanced u := by
  induction u with
  | nil => exact balanced_nil
  | cons t u ih =>
    obtain ⟨hopen, hclose⟩ := (h t List.mem_cons_self).written_ne
    exact (ih fun t' ht' => h t' (List.mem_cons_of_mem _ ht')).cons hopen hclose

theorem Balanced.unclosed (hu : Balanced u) : Unclosed u := by
  intro n
  rw [hu]
  rfl

theorem Unclosed.append (hu : Unclosed u) (hv : Unclosed v) : Unclosed (u ++ v) := by
  intro n
  rw [parenLevel_append]
  obtain ⟨k, hk⟩ := Option.isSome_iff_exists.1 (hu n)
  rw [hk, Option.bind_some]
  exact hv k

theorem Unclosed.of_append (h : Unclosed (u ++ v)) : Unclosed u := by
  intro n
  have hn := h n
  rw [parenLevel_append] at hn
  exact Option.isSome_of_isSome_bind hn

theorem unclosed_opening {form : Form} {us : List Token} (h : Opening form us) : Unclosed us := by
  intro n
  rw [parenLevel_opening h]
  rfl

/-- After a balanced group its closing parenthesis closes one from outside. -/
theorem Balanced.not_unclosed {form : Form} {vs : List Token} (hu : Balanced u)
    (hclose : Closing form vs) : ¬ Unclosed (u ++ vs) := by
  intro h
  have h0 := h 0
  rw [parenLevel_append, hu, Option.bind_some, parenLevel_closing_zero hclose] at h0
  cases h0

/-- Tokens that close nothing from outside end before the closing parenthesis of a group does. -/
theorem Balanced.exists_of_unclosed {form : Form} {vs pre post rest : List Token} (hu : Balanced u)
    (hclose : Closing form vs) (hpre : Unclosed pre) (heq : pre ++ post = u ++ (vs ++ rest)) :
    ∃ t mid, u ++ vs = pre ++ t :: mid := by
  rw [← List.append_assoc] at heq
  rcases List.append_eq_append_iff.1 heq with ⟨mid, hmid, -⟩ | ⟨mid, rfl, -⟩
  · cases mid with
    | nil =>
      rw [List.append_nil] at hmid
      exact absurd (hmid ▸ hpre) (hu.not_unclosed hclose)
    | cons t mid => exact ⟨t, mid, hmid⟩
  · exact absurd hpre.of_append (hu.not_unclosed hclose)

/-- The first tokens of a closing parenthesis close nothing. -/
theorem Reader.Closing.exists_concat {form : Form} {vs : List Token} (h : Closing form vs) :
    ∃ ws c, vs = ws ++ [c] ∧ Balanced ws ∧ ws.length + 1 = (match form with
      | .short => 1
      | .long => 2) := by
  cases h with
  | @short c hc => exact ⟨[], c, rfl, balanced_nil, rfl⟩
  | @long r c hr hc =>
    exact ⟨[r], c, rfl, balanced_nil.cons (by rw [hr]; decide) (by rw [hr]; decide), rfl⟩

theorem Balanced.length_le {form : Form} {vs vs' rest rest' : List Token} (hu : Balanced u)
    (hv : Balanced v) (hclose : Closing form vs) (hclose' : Closing form vs')
    (heq : v ++ (vs' ++ rest') = u ++ (vs ++ rest)) : v.length ≤ u.length := by
  obtain ⟨ws, c, rfl, -, hws⟩ := hclose.exists_concat
  obtain ⟨ws', c', rfl, hbalanced, hws'⟩ := hclose'.exists_concat
  have hpre : (v ++ ws') ++ ([c'] ++ rest') = u ++ ((ws ++ [c]) ++ rest) := by
    rw [← heq]
    simp
  obtain ⟨t, mid, hmid⟩ :=
    hu.exists_of_unclosed hclose (hv.append hbalanced).unclosed hpre
  have hlength := congrArg List.length hmid
  simp only [List.length_append, List.length_cons, List.length_nil] at hlength
  omega

/-- The parenthesis that closes a group is the only one that does. -/
theorem Balanced.unique {form : Form} {vs vs' rest rest' : List Token} (hu : Balanced u)
    (hv : Balanced v) (hclose : Closing form vs) (hclose' : Closing form vs')
    (heq : u ++ (vs ++ rest) = v ++ (vs' ++ rest')) : u = v :=
  List.append_inj_left heq
    (le_antisymm (hv.length_le hu hclose' hclose heq) (hu.length_le hv hclose hclose' heq.symm))

end Balanced

end LatexLogic
