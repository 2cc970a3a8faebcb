import LatexLogic.Proofs.Reading.Forward

/-!
# Names as they are written

Which tokens the readers of names accept, said without the readers. A subscript is an underscore
with one digit or with a group of digits in braces (`SubscriptSpelled`); a variable is a letter with
or without one (`VariableSpelled`). Both readers accept exactly these tokens
(`subscript_eq_ok_iff`, `variableName_eq_ok_iff`), and what they return is a name: every variable
that is read is either an eigenvariable or an ordinary one (`isVariable_of_variableName`).
-/

set_option autoImplicit false

namespace LatexLogic

/-! ## Names -/

/-- Names of variables of either class. -/
def isVariable (name : String) : Bool :=
  isVariableOf isVariableLetter name

/-- Names of metavariables: a letter, with or without a subscript. -/
def IsMetavariableName (name : String) : Prop :=
  ∃ (letter : MetaLetter) (part : List Char),
    isSubscriptPart part = true ∧ name = letter.name ++ String.ofList part

/-- Nothing, or an underscore and digits. -/
theorem isSubscriptPart_iff {part : List Char} :
    isSubscriptPart part = true ↔
      part = [] ∨ ∃ ds, ds ≠ [] ∧ (∀ d ∈ ds, isDecimalDigit d = true) ∧ part = '_' :: ds := by
  constructor
  · intro h
    unfold isSubscriptPart at h
    split at h
    · exact Or.inl rfl
    · next d ds => exact Or.inr ⟨d :: ds, List.cons_ne_nil _ _, List.all_eq_true.1 h, rfl⟩
    · cases h
  · rintro (rfl | ⟨ds, hne, hall, rfl⟩)
    · rfl
    · cases ds with
      | nil => exact absurd rfl hne
      | cons d ds => exact List.all_eq_true.2 hall

/-- A letter, with or without a subscript. -/
theorem isVariable_iff {name : String} :
    isVariable name = true ↔ ∃ c part, name.toList = c :: part ∧ isVariableLetter c = true ∧
      isSubscriptPart part = true := by
  unfold isVariable isVariableOf
  cases name.toList with
  | nil => simp
  | cons c part => simp

/-- A letter of a variable belongs to one of the two classes. -/
theorem isVariableLetter_eq (c : Char) :
    isVariableLetter c = (isEigenLetter c || isOrdinaryLetter c) := by
  rw [Bool.eq_iff_iff]
  simp only [isVariableLetter, isEigenLetter, isOrdinaryLetter, Bool.or_eq_true, Bool.and_eq_true,
    decide_eq_true_eq, Char.le_def, UInt32.le_iff_toNat_le]
  have ha : ('a').val.toNat = 97 := rfl
  have hr : ('r').val.toNat = 114 := rfl
  have hs : ('s').val.toNat = 115 := rfl
  have hz : ('z').val.toNat = 122 := rfl
  omega

/-- No letter belongs to both classes. -/
theorem isOrdinaryLetter_of_isEigenLetter {c : Char} (h : isEigenLetter c = true) :
    isOrdinaryLetter c = false := by
  simp only [isEigenLetter, Bool.and_eq_true, decide_eq_true_eq, Char.le_def,
    UInt32.le_iff_toNat_le] at h
  simp only [isOrdinaryLetter, Bool.and_eq_false_iff, decide_eq_false_iff_not, Char.le_def,
    UInt32.le_iff_toNat_le]
  have hr : ('r').val.toNat = 114 := rfl
  have hs : ('s').val.toNat = 115 := rfl
  omega

/-- A variable is an eigenvariable or an ordinary variable. -/
theorem isVariable_eq (name : String) :
    isVariable name = (isEigenvariable name || isOrdinaryVariable name) := by
  unfold isVariable isEigenvariable isOrdinaryVariable isVariableOf
  cases name.toList with
  | nil => rfl
  | cons c rest =>
    dsimp only
    rw [isVariableLetter_eq]
    cases isEigenLetter c <;> cases isOrdinaryLetter c <;> cases isSubscriptPart rest <;> rfl

theorem isVariable_of_isOrdinaryVariable {name : String} (h : isOrdinaryVariable name = true) :
    isVariable name = true := by
  rw [isVariable_eq, h, Bool.or_true]

/-- No eigenvariable is an ordinary variable. -/
theorem isOrdinaryVariable_of_isEigenvariable {name : String} (h : isEigenvariable name = true) :
    isOrdinaryVariable name = false := by
  unfold isEigenvariable isVariableOf at h
  unfold isOrdinaryVariable isVariableOf
  cases hname : name.toList with
  | nil => rfl
  | cons c rest =>
    rw [hname] at h
    dsimp only at h ⊢
    rw [Bool.and_eq_true] at h
    rw [isOrdinaryLetter_of_isEigenLetter h.1, Bool.false_and]

/-- A variable that is no eigenvariable is an ordinary one. -/
theorem isOrdinaryVariable_iff_of_isVariable {name : String} (h : isVariable name = true) :
    isOrdinaryVariable name = true ↔ isEigenvariable name = false := by
  rw [isVariable_eq, Bool.or_eq_true] at h
  constructor
  · intro hordinary
    by_contra hne
    rw [isOrdinaryVariable_of_isEigenvariable (by simpa using hne)] at hordinary
    cases hordinary
  · intro hne
    rcases h with h | h
    · rw [h] at hne
      cases hne
    · exact h

namespace Reader

variable {ts rest : List Token}

/-! ## Digits -/

theorem digitOf?_eq_some_iff {t : Token} {d : Char} :
    digitOf? t = some d ↔ t = .char d ∧ isDecimalDigit d = true := by
  cases t with
  | char c =>
    by_cases hc : isDecimalDigit c = true
    · simp only [digitOf?, if_pos hc, Option.some.injEq, Token.char.injEq]
      constructor
      · rintro rfl
        exact ⟨rfl, hc⟩
      · intro h
        exact h.1
    · simp only [digitOf?, if_neg hc, Token.char.injEq, reduceCtorEq, false_iff]
      rintro ⟨rfl, hd⟩
      exact hc hd
  | known _ _ => simp [digitOf?]
  | metavariable _ => simp [digitOf?]
  | unrecognized _ => simp [digitOf?]

/-- Whether the next token is a digit. -/
def digitNext : List Token → Bool
  | [] => false
  | t :: _ => (digitOf? t).isSome

/-- At a token that is no digit no digits are taken. -/
theorem leadingDigits_of_digitOf?_eq_none {t : Token} (h : digitOf? t = none) :
    leadingDigits (t :: ts) = ([], t :: ts) := by
  cases t with
  | char c =>
    have hc : ¬ isDecimalDigit c = true := by
      intro hc
      simp [digitOf?, hc] at h
    simp only [leadingDigits, if_neg hc]
  | known _ _ => rfl
  | metavariable _ => rfl
  | unrecognized _ => rfl

/-- The digits at the front of a list are taken up to the first token that is none. -/
theorem leadingDigits_eq_iff {ds : List Char} :
    leadingDigits ts = (ds, rest) ↔
      ts = ds.map Token.char ++ rest ∧ (∀ d ∈ ds, isDecimalDigit d = true) ∧
        digitNext rest = false := by
  induction ts generalizing ds with
  | nil =>
    simp only [leadingDigits, Prod.mk.injEq, List.nil_eq_append_iff, List.map_eq_nil_iff]
    constructor
    · rintro ⟨rfl, rfl⟩
      exact ⟨⟨rfl, rfl⟩, by simp, rfl⟩
    · rintro ⟨⟨rfl, rfl⟩, -, -⟩
      exact ⟨rfl, rfl⟩
  | cons t ts ih =>
    cases hdigit : digitOf? t with
    | some c =>
      obtain ⟨rfl, hc⟩ := digitOf?_eq_some_iff.1 hdigit
      simp only [leadingDigits, if_pos hc, Prod.mk.injEq]
      constructor
      · rintro ⟨rfl, hrest⟩
        obtain ⟨hts, hall, hnext⟩ := ih.1 (Prod.ext rfl hrest)
        refine ⟨by rw [List.map_cons, List.cons_append, ← hts], ?_, hnext⟩
        intro d hd
        rcases List.mem_cons.1 hd with rfl | hd
        · exact hc
        · exact hall d hd
      · rintro ⟨hts, hall, hnext⟩
        cases ds with
        | nil =>
          rw [List.map_nil, List.nil_append] at hts
          subst hts
          simp [digitNext, digitOf?, hc] at hnext
        | cons d ds =>
          simp only [List.map_cons, List.cons_append, List.cons.injEq, Token.char.injEq] at hts
          obtain ⟨rfl, hts⟩ := hts
          have hlead := ih.2 ⟨hts, fun d hd => hall d (List.mem_cons_of_mem _ hd), hnext⟩
          rw [hlead]
          exact ⟨rfl, rfl⟩
    | none =>
      rw [leadingDigits_of_digitOf?_eq_none hdigit, Prod.mk.injEq]
      constructor
      · rintro ⟨rfl, rfl⟩
        exact ⟨rfl, by simp, by simp [digitNext, hdigit]⟩
      · rintro ⟨hts, hall, -⟩
        cases ds with
        | nil => exact ⟨rfl, hts⟩
        | cons d ds =>
          simp only [List.map_cons, List.cons_append, List.cons.injEq] at hts
          have hd := digitOf?_eq_some_iff.2 ⟨hts.1, hall d List.mem_cons_self⟩
          rw [hd] at hdigit
          cases hdigit

/-- A number is read if it has a digit, and with all its digits. -/
theorem integer_eq_ok_iff {s : String} :
    integer ts = .ok s rest ↔
      ∃ ds : List Char, ds ≠ [] ∧ ts = ds.map Token.char ++ rest ∧
        (∀ d ∈ ds, isDecimalDigit d = true) ∧ digitNext rest = false ∧ s = String.ofList ds := by
  unfold integer
  cases hlead : leadingDigits ts with
  | mk digits left =>
    obtain ⟨hts, hall, hnext⟩ := leadingDigits_eq_iff.1 hlead
    cases digits with
    | nil =>
      rw [List.map_nil, List.nil_append] at hts
      subst hts
      have hno : ¬ ∃ ds : List Char, ds ≠ [] ∧ ts = ds.map Token.char ++ rest ∧
          (∀ d ∈ ds, isDecimalDigit d = true) ∧ digitNext rest = false ∧ s = String.ofList ds := by
        rintro ⟨ds, hne, hts, hall, hrest, -⟩
        have hlead' := leadingDigits_eq_iff.2 ⟨hts, hall, hrest⟩
        rw [hlead] at hlead'
        exact hne (Prod.mk.inj hlead').1.symm
      cases ts with
      | nil => exact iff_of_false (by simp) hno
      | cons t us => exact iff_of_false (by simp) hno
    | cons d ds =>
      simp only [EStateM.Result.ok.injEq]
      constructor
      · rintro ⟨rfl, rfl⟩
        exact ⟨d :: ds, List.cons_ne_nil _ _, hts, hall, hnext, rfl⟩
      · rintro ⟨es, -, hes, hall', hrest, rfl⟩
        have hlead' := leadingDigits_eq_iff.2 ⟨hes, hall', hrest⟩
        rw [hlead] at hlead'
        obtain ⟨rfl, rfl⟩ := Prod.mk.inj hlead'
        exact ⟨rfl, rfl⟩

/-! ## Subscripts -/

/-- An underscore and a subscript stand in front of the remaining tokens: one digit, or a group of
digits in braces. -/
inductive SubscriptSpelled : List Token → List Char → List Token → Prop where
  | digit {u : Token} {d : Char} (rest : List Token) :
      u.written = "_" → isDecimalDigit d = true → SubscriptSpelled (u :: .char d :: rest) [d] rest
  | group {u o c : Token} {ds : List Char} (rest : List Token) :
      u.written = "_" → o.written = "\x7b" → ds ≠ [] → (∀ d ∈ ds, isDecimalDigit d = true) →
      c.written = "\x7d" → SubscriptSpelled (u :: o :: (ds.map Token.char ++ c :: rest)) ds rest

/-- A token that is written as a text other than a digit is no digit. -/
theorem digitOf?_eq_none {t : Token} (h : ∀ d, isDecimalDigit d = true →
    t.written ≠ String.singleton d) : digitOf? t = none := by
  cases hd : digitOf? t with
  | none => rfl
  | some d =>
    obtain ⟨rfl, hdigit⟩ := digitOf?_eq_some_iff.1 hd
    exact absurd rfl (h d hdigit)

theorem singleton_ne_of_isDecimalDigit {d c : Char} (hc : isDecimalDigit c = false)
    (hd : isDecimalDigit d = true) : String.singleton c ≠ String.singleton d := by
  intro h
  have hcd : c = d := by simpa using congrArg String.toList h
  rw [hcd, hd] at hc
  cases hc

theorem braced_eq_ok_iff {α : Type} {inner : Reader α} {a : α} :
    braced inner ts = .ok a rest ↔
      ∃ o inside mid c, ts = o :: inside ∧ o.written = "\x7b" ∧ inner inside = .ok a mid ∧
        mid = c :: rest ∧ c.written = "\x7d" := by
  simp only [braced, bind_eq_ok_iff, expect_eq_ok_iff, pure_eq_ok_iff]
  constructor
  · rintro ⟨o, inside, ⟨rfl, ho⟩, a, mid, hinner, c, _, ⟨rfl, hc⟩, rfl, rfl⟩
    exact ⟨o, inside, _, c, rfl, ho, hinner, rfl, hc⟩
  · rintro ⟨o, inside, mid, c, rfl, ho, hinner, rfl, hc⟩
    exact ⟨o, inside, ⟨rfl, ho⟩, a, _, hinner, c, rest, ⟨rfl, hc⟩, rfl, rfl⟩

/-- A subscript is read exactly as it is spelled. -/
theorem subscript_eq_ok_iff {s : String} :
    subscript ts = .ok s rest ↔ ∃ ds, SubscriptSpelled ts ds rest ∧ s = String.ofList ds := by
  simp only [subscript, bind_eq_ok_iff, expect_eq_ok_iff, peek?_bind]
  constructor
  · rintro ⟨u, mid, ⟨rfl, hu⟩, hread⟩
    cases mid with
    | nil => exact absurd hread fail_ne_ok
    | cons t us =>
      simp only [List.head?_cons] at hread
      cases hd : digitOf? t with
      | some d =>
        simp only [hd, next?_bind_cons, pure_eq_ok_iff] at hread
        obtain ⟨rfl, rfl⟩ := hread
        obtain ⟨rfl, hdigit⟩ := digitOf?_eq_some_iff.1 hd
        exact ⟨[d], .digit _ hu hdigit, rfl⟩
      | none =>
        simp only [hd, braced_eq_ok_iff, integer_eq_ok_iff] at hread
        obtain ⟨o, inside, _, c, hts, ho, ⟨ds, hne, rfl, hall, -, rfl⟩, rfl, hc⟩ := hread
        obtain ⟨rfl, rfl⟩ := List.cons.inj hts
        exact ⟨ds, .group _ hu ho hne hall hc, rfl⟩
  · rintro ⟨ds, hspelled, rfl⟩
    cases hspelled with
    | digit _ hu hd =>
      refine ⟨_, _, ⟨rfl, hu⟩, ?_⟩
      simp only [List.head?_cons, digitOf?, if_pos hd, next?_bind_cons, pure_eq_ok_iff]
      exact ⟨rfl, trivial⟩
    | @group u o c _ _ hu ho hne hall hc =>
      have hopen : digitOf? o = none := digitOf?_eq_none fun d hd =>
        ho ▸ singleton_ne_of_isDecimalDigit (c := '\x7b') (by decide) hd
      have hclose : digitOf? c = none := digitOf?_eq_none fun d hd =>
        hc ▸ singleton_ne_of_isDecimalDigit (c := '\x7d') (by decide) hd
      refine ⟨u, _, ⟨rfl, hu⟩, ?_⟩
      simp only [List.head?_cons, hopen, braced_eq_ok_iff, integer_eq_ok_iff]
      exact ⟨o, _, c :: rest, c, rfl, ho,
        ⟨ds, hne, rfl, hall, by simp [digitNext, hclose], rfl⟩, rfl, hc⟩

/-- A name is read with the subscript that follows it, if one does. -/
theorem withSubscript_eq_ok_iff {name s : String} :
    withSubscript name ts = .ok s rest ↔
      (nextIs "_" ts = false ∧ s = name ∧ rest = ts) ∨
        ∃ ds, SubscriptSpelled ts ds rest ∧ s = name ++ String.ofList ('_' :: ds) := by
  have hname : ∀ ds : List Char, name ++ "_" ++ String.ofList ds =
      name ++ String.ofList ('_' :: ds) := by
    intro ds
    rw [← String.toList_inj]
    simp
  simp only [withSubscript, get_bind]
  cases hnext : nextIs "_" ts with
  | false =>
    simp only [Bool.false_eq_true, if_false, pure_eq_ok_iff, true_and]
    constructor
    · rintro ⟨rfl, rfl⟩
      exact Or.inl ⟨rfl, rfl⟩
    · rintro (⟨rfl, rfl⟩ | ⟨ds, hspelled, -⟩)
      · exact ⟨rfl, rfl⟩
      · cases hspelled with
        | digit _ hu _ => simp [hu] at hnext
        | group _ hu _ _ _ _ => simp [hu] at hnext
  | true =>
    simp only [if_true, bind_eq_ok_iff, subscript_eq_ok_iff, pure_eq_ok_iff, Bool.true_eq_false,
      false_and, false_or]
    constructor
    · rintro ⟨_, mid, ⟨ds, hspelled, rfl⟩, rfl, rfl⟩
      exact ⟨ds, hspelled, hname ds⟩
    · rintro ⟨ds, hspelled, rfl⟩
      exact ⟨_, rest, ⟨ds, hspelled, rfl⟩, hname ds, rfl⟩

/-! ## Variables -/

/-- A variable stands in front of the remaining tokens: a letter alone, or with a subscript. -/
inductive VariableSpelled : List Token → String → List Token → Prop where
  | plain {c : Char} (rest : List Token) :
      isVariableLetter c = true → nextIs "_" rest = false →
      VariableSpelled (.char c :: rest) (String.singleton c) rest
  | subscripted {c : Char} {ds : List Char} {ts : List Token} (rest : List Token) :
      isVariableLetter c = true → SubscriptSpelled ts ds rest →
      VariableSpelled (.char c :: ts) (String.singleton c ++ String.ofList ('_' :: ds)) rest

/-- A variable is read exactly as it is spelled. -/
theorem variableName_eq_ok_iff {v : String} :
    variableName ts = .ok v rest ↔ VariableSpelled ts v rest := by
  simp only [variableName, bind_eq_ok_iff, next_eq_ok_iff]
  constructor
  · rintro ⟨t, mid, rfl, hread⟩
    cases t with
    | char c =>
      by_cases hc : isVariableLetter c = true
      · simp only [variableLetter?, if_pos hc, withSubscript_eq_ok_iff] at hread
        rcases hread with ⟨hnext, rfl, rfl⟩ | ⟨ds, hspelled, rfl⟩
        · exact .plain _ hc hnext
        · exact .subscripted _ hc hspelled
      · simp only [variableLetter?, if_neg hc, fail_ne_ok] at hread
    | known _ _ => exact absurd hread fail_ne_ok
    | metavariable _ => exact absurd hread fail_ne_ok
    | unrecognized _ => exact absurd hread fail_ne_ok
  · intro hspelled
    cases hspelled with
    | plain _ hc hnext =>
      refine ⟨_, _, rfl, ?_⟩
      simp only [variableLetter?, if_pos hc]
      exact withSubscript_eq_ok_iff.2 (Or.inl ⟨hnext, rfl, rfl⟩)
    | subscripted _ hc hspelled =>
      refine ⟨_, _, rfl, ?_⟩
      simp only [variableLetter?, if_pos hc]
      exact withSubscript_eq_ok_iff.2 (Or.inr ⟨_, hspelled, rfl⟩)

theorem SubscriptSpelled.isSubscriptPart {ds : List Char} (h : SubscriptSpelled ts ds rest) :
    isSubscriptPart ('_' :: ds) = true := by
  cases h with
  | digit _ _ hd => simp [LatexLogic.isSubscriptPart, hd]
  | group _ _ _ hne hall _ => exact isSubscriptPart_iff.2 (Or.inr ⟨ds, hne, hall, rfl⟩)

/-- What is read as a variable is the name of one. -/
theorem isVariable_of_variableName {v : String} (h : variableName ts = .ok v rest) :
    isVariable v = true := by
  rw [variableName_eq_ok_iff] at h
  cases h with
  | plain _ hc _ => simp [isVariable, isVariableOf, hc, isSubscriptPart]
  | subscripted _ hc hspelled =>
    simp [isVariable, isVariableOf, hc, hspelled.isSubscriptPart]

end Reader

end LatexLogic
