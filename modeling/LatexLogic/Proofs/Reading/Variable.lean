import LatexLogic.Proofs.Reading.Name

/-!
# Variables by letter and digits

A variable has a letter and digits, possibly none. The tokens of a variable are said by cases on its
digits (`Reader.VariableWritten`): a letter that no underscore follows, a letter with one digit, or a
letter with digits in braces, of which there may be one as well. Only a number in braces is taken as a
whole; of a number without braces the first digit is taken, and the others remain.

The reader accepts these tokens and no others (`Reader.variableName_eq_ok_iff_written`), and the name
that it returns keeps the letter and the digits (`variableText_inj`). As every eigenvariable and every
ordinary variable is such a name, the reader and the two patterns for names, which decide how a variable
may be bound, agree on what a variable is (`variableName_exact`).
-/

set_option autoImplicit false

namespace LatexLogic

/-! ## Names -/

/-- The name of the variable with a letter and digits. -/
def variableText (c : Char) (ds : List Char) : String :=
  String.ofList (c :: if ds = [] then [] else '_' :: ds)

theorem variableText_of_ne_nil (c : Char) {ds : List Char} (h : ds ≠ []) :
    variableText c ds = String.singleton c ++ String.ofList ('_' :: ds) := by
  rw [variableText, if_neg h, ← String.toList_inj]
  simp

/-- A name has one letter and one list of digits. -/
theorem variableText_inj {c c' : Char} {ds ds' : List Char} :
    variableText c ds = variableText c' ds' ↔ c = c' ∧ ds = ds' := by
  rw [variableText, variableText, String.ofList_inj, List.cons.injEq, and_congr_right_iff]
  rintro -
  by_cases hds : ds = [] <;> by_cases hds' : ds' = [] <;> simp [hds, hds', eq_comm]

/-- The names of variables are made of a letter and digits. -/
theorem isVariable_iff_exists_text {name : String} :
    isVariable name = true ↔ ∃ c ds, isVariableLetter c = true ∧
      (∀ d ∈ ds, isDecimalDigit d = true) ∧ name = variableText c ds := by
  rw [isVariable_iff]
  constructor
  · rintro ⟨c, part, hname, hc, hpart⟩
    obtain rfl : name = String.ofList (c :: part) := by rw [← hname, String.ofList_toList]
    rcases isSubscriptPart_iff.1 hpart with rfl | ⟨ds, hne, hds, rfl⟩
    · exact ⟨c, [], hc, List.forall_mem_nil _, rfl⟩
    · exact ⟨c, ds, hc, hds, by rw [variableText, if_neg hne]⟩
  · rintro ⟨c, ds, hc, hds, rfl⟩
    refine ⟨c, _, String.toList_ofList, hc, isSubscriptPart_iff.2 ?_⟩
    by_cases hne : ds = []
    · exact Or.inl (if_pos hne)
    · exact Or.inr ⟨ds, hne, hds, if_neg hne⟩

namespace Reader

/-! ## Tokens -/

/-- A variable with the given letter and digits stands in front of the remaining tokens. -/
inductive VariableWritten : List Token → Char → List Char → List Token → Prop where
  | plain {c : Char} {rest : List Token} :
      isVariableLetter c = true → nextIs "_" rest = false →
      VariableWritten (.char c :: rest) c [] rest
  | digit {c d : Char} {u : Token} {rest : List Token} :
      isVariableLetter c = true → u.written = "_" → isDecimalDigit d = true →
      VariableWritten (.char c :: u :: .char d :: rest) c [d] rest
  | group {c : Char} {ds : List Char} {u o e : Token} {rest : List Token} :
      isVariableLetter c = true → u.written = "_" → o.written = "\x7b" → ds ≠ [] →
      (∀ d ∈ ds, isDecimalDigit d = true) → e.written = "\x7d" →
      VariableWritten (.char c :: u :: o :: (ds.map Token.char ++ e :: rest)) c ds rest

/-- The spelling of a variable as a whole consists of its letter and its digits. -/
theorem variableSpelled_iff {ts rest : List Token} {v : String} :
    VariableSpelled ts v rest ↔ ∃ c ds, VariableWritten ts c ds rest ∧ v = variableText c ds := by
  constructor
  · intro h
    cases h with
    | plain _ hc hnext => exact ⟨_, [], .plain hc hnext, rfl⟩
    | subscripted _ hc hsubscript =>
      cases hsubscript with
      | digit _ hu hd =>
        exact ⟨_, _, .digit hc hu hd, (variableText_of_ne_nil _ (List.cons_ne_nil _ _)).symm⟩
      | group _ hu ho hne hds he =>
        exact ⟨_, _, .group hc hu ho hne hds he, (variableText_of_ne_nil _ hne).symm⟩
  · rintro ⟨c, ds, hwritten, rfl⟩
    cases hwritten with
    | plain hc hnext => exact .plain _ hc hnext
    | digit hc hu hd =>
      rw [variableText_of_ne_nil c (List.cons_ne_nil _ _)]
      exact .subscripted _ hc (.digit _ hu hd)
    | group hc hu ho hne hds he =>
      rw [variableText_of_ne_nil c hne]
      exact .subscripted _ hc (.group _ hu ho hne hds he)

/-- A variable is read where its tokens stand, and under its name. -/
theorem variableName_eq_ok_iff_written {ts rest : List Token} {v : String} :
    variableName ts = .ok v rest ↔
      ∃ c ds, VariableWritten ts c ds rest ∧ v = variableText c ds :=
  variableName_eq_ok_iff.trans variableSpelled_iff

/-- Every variable can be written so that nothing remains: with its digits, if it has any, in
braces. -/
theorem exists_variableName {v : String} (h : isVariable v = true) :
    ∃ ts, variableName ts = .ok v [] := by
  obtain ⟨c, ds, hc, hds, rfl⟩ := isVariable_iff_exists_text.1 h
  by_cases hne : ds = []
  · subst hne
    exact ⟨[.char c], variableName_eq_ok_iff_written.2 ⟨c, [], .plain hc rfl, rfl⟩⟩
  · have hwritten : VariableWritten
        (.char c :: .char '_' :: .char '\x7b' :: (ds.map Token.char ++ [.char '\x7d'])) c ds [] :=
      .group hc rfl rfl hne hds rfl
    exact ⟨_, variableName_eq_ok_iff_written.2 ⟨c, ds, hwritten, rfl⟩⟩

end Reader

open Reader

/-! ## Reader and patterns -/

/-- What variables are. A variable is read exactly where its tokens stand, which are taken and no
others, and its name is made of its letter and its digits. Every name that is read fits one of the two
patterns and not the other, every name that fits one is read, and two spellings give the same name if
they have the same letter and the same digits. -/
theorem variableName_exact :
    (∀ ts v rest, variableName ts = .ok v rest ↔
      ∃ c ds, VariableWritten ts c ds rest ∧ v = variableText c ds) ∧
    (∀ ts v rest, variableName ts = .ok v rest → isOrdinaryVariable v = !isEigenvariable v) ∧
    (∀ v, isEigenvariable v = true ∨ isOrdinaryVariable v = true →
      ∃ ts, variableName ts = .ok v []) ∧
    ∀ ts c ds rest ts' c' ds' rest',
      VariableWritten ts c ds rest → VariableWritten ts' c' ds' rest' →
      ∃ v v', variableName ts = .ok v rest ∧ variableName ts' = .ok v' rest' ∧
        (v = v' ↔ c = c' ∧ ds = ds') := by
  refine ⟨fun ts v rest => variableName_eq_ok_iff_written, ?_, ?_, ?_⟩
  · intro ts v rest hread
    rw [Bool.eq_iff_iff, isOrdinaryVariable_iff_of_isVariable (isVariable_of_variableName hread),
      Bool.not_eq_true']
  · intro v hv
    exact exists_variableName (by rw [isVariable_eq, Bool.or_eq_true]; exact hv)
  · intro ts c ds rest ts' c' ds' rest' h h'
    exact ⟨_, _, variableName_eq_ok_iff_written.2 ⟨c, ds, h, rfl⟩,
      variableName_eq_ok_iff_written.2 ⟨c', ds', h', rfl⟩, variableText_inj⟩

/-- In `x_12` the variable ends before the second digit, and `x_1` and `x_{1}` are one variable. -/
theorem variableName_exact_digits :
    let x : Token := .char 'x'
    let u : Token := .char '_'
    let one : Token := .char '1'
    let group : List Token := [x, u, .char '\x7b', one, .char '\x7d']
    variableName [x, u, one, .char '2'] = .ok "x_1" [.char '2'] ∧
      isOrdinaryVariable "x_1" = !isEigenvariable "x_1" ∧
      (∃ ts, variableName ts = .ok "x_1" []) ∧
      ∃ v v', variableName [x, u, one] = .ok v [] ∧ variableName group = .ok v' [] ∧ v = v' := by
  intro x u one group
  obtain ⟨hread, hexactly, hevery, hnames⟩ := variableName_exact
  have hletter : isVariableLetter 'x' = true := by decide
  have hdigit : isDecimalDigit '1' = true := by decide
  have hx := (hread [x, u, one, .char '2'] "x_1" [.char '2']).2
    ⟨'x', ['1'], .digit hletter rfl hdigit, by decide⟩
  have hgroup : VariableWritten group 'x' ['1'] [] :=
    .group hletter rfl rfl (List.cons_ne_nil _ _) (List.forall_mem_singleton.2 hdigit) rfl
  obtain ⟨v, v', hv, hv', hsame⟩ := hnames _ _ _ [] _ _ _ []
    (VariableWritten.digit hletter (rfl : u.written = "_") hdigit) hgroup
  exact ⟨hx, hexactly _ _ _ hx, hevery "x_1" (Or.inr (by decide)),
    v, v', hv, hv', hsame.2 ⟨rfl, rfl⟩⟩

end LatexLogic
