import LatexLogic.Proofs.Grammar.Balance
import LatexLogic.Proofs.Reading.Declaration

/-!
# Groups

The tokens of a phrase fall into groups (`Grouped`): every parenthesis that opens is closed by one
of the same form, and what stands between is grouped again. Where a table leaves the delimiters
alone the tokens of whatever is derived are grouped (`TermDerivation.grouped`,
`FormulaDerivation.grouped`), and so they are balanced.

The grouping is a matter of the tokens: which parenthesis closes which can be read off without any
reading of formulas (`Grouped.form_iff`), so that no formula contains a parenthesis that opens in
one form and closes in the other.
-/

set_option autoImplicit false

namespace LatexLogic

open Reader

/-- Tokens in which every parenthesis that opens is closed by one of the same form. -/
inductive Grouped : List Token → Prop where
  | nil : Grouped []
  | token {t : Token} {u : List Token} : t.written ∉ parenTexts → Grouped u → Grouped (t :: u)
  | group {form : Form} {us u vs w : List Token} :
      Opening form us → Closing form vs → Grouped u → Grouped w →
      Grouped (us ++ (u ++ (vs ++ w)))

section Grouped

variable {u v : List Token}

theorem Grouped.append (hu : Grouped u) (hv : Grouped v) : Grouped (u ++ v) := by
  induction hu with
  | nil => exact hv
  | token ht _ ih => exact .token ht ih
  | group hopen hclose hinside _ _ ihrest =>
    rw [List.append_assoc, List.append_assoc, List.append_assoc]
    exact .group hopen hclose hinside ihrest

theorem Grouped.parens {form : Form} {us vs : List Token} (hopen : Opening form us)
    (hclose : Closing form vs) (hu : Grouped u) : Grouped (us ++ (u ++ vs)) := by
  have h := Grouped.group hopen hclose hu .nil
  rwa [List.append_nil] at h

theorem Grouped.known {lexeme : Lexeme} {c : Construct} (hplain : (Token.known lexeme c).Plain)
    (hu : Grouped u) : Grouped (.known lexeme c :: u) :=
  .token hplain.notMem_parenTexts hu

/-- Tokens without any parenthesis are grouped. -/
theorem grouped_of_forall (h : ∀ t ∈ u, t.written ∉ parenTexts) : Grouped u := by
  induction u with
  | nil => exact .nil
  | cons t u ih => exact .token (h t List.mem_cons_self) (ih fun t' ht' => h t' (.tail _ ht'))

theorem Grouped.balanced (h : Grouped u) : Balanced u := by
  induction h with
  | nil => exact balanced_nil
  | token ht _ ih =>
    obtain ⟨hopen, hclose⟩ := Token.written_ne_of_notMem_parenTexts ht
    exact ih.cons hopen hclose
  | @group form us u vs w hopen hclose _ _ ihinside ihrest =>
    have h := (ihinside.parens hopen hclose).append ihrest
    rwa [List.append_assoc, List.append_assoc] at h

end Grouped

/-! ## Names -/

theorem Reader.SubscriptSpelled.exists_parts {ts rest : List Token} {ds : List Char}
    (h : SubscriptSpelled ts ds rest) : ∃ u, ts = u ++ rest ∧ ∀ t ∈ u, t.NamePart := by
  cases h with
  | digit rest hu hd =>
    refine ⟨[_, _], rfl, fun t ht => ?_⟩
    simp only [List.mem_cons, List.not_mem_nil, or_false] at ht
    rcases ht with rfl | rfl
    · exact Or.inr (by simp [hu])
    · exact Or.inl ⟨_, rfl, Or.inr hd⟩
  | @group u o c _ rest hu ho hne hall hc =>
    refine ⟨u :: o :: (ds.map Token.char ++ [c]), by simp, fun t ht => ?_⟩
    simp only [List.mem_cons, List.mem_append, List.mem_map, List.not_mem_nil, or_false] at ht
    rcases ht with rfl | rfl | ⟨d, hd, rfl⟩ | rfl
    · exact Or.inr (by simp [hu])
    · exact Or.inr (by simp [ho])
    · exact Or.inl ⟨d, rfl, Or.inr (hall d hd)⟩
    · exact Or.inr (by simp [hc])

theorem Reader.VariableSpelled.exists_parts {ts rest : List Token} {name : String}
    (h : VariableSpelled ts name rest) : ∃ u, ts = u ++ rest ∧ ∀ t ∈ u, t.NamePart := by
  cases h with
  | plain rest hc _ =>
    refine ⟨[_], rfl, fun t ht => ?_⟩
    rw [List.mem_singleton.1 ht]
    exact Or.inl ⟨_, rfl, Or.inl hc⟩
  | subscripted rest hc hspelled =>
    obtain ⟨u, rfl, hu⟩ := hspelled.exists_parts
    refine ⟨_ :: u, rfl, fun t ht => ?_⟩
    rcases List.mem_cons.1 ht with rfl | ht
    · exact Or.inl ⟨_, rfl, Or.inl hc⟩
    · exact hu t ht

/-- A variable takes at least its letter. -/
theorem Reader.VariableSpelled.length_lt {ts rest : List Token} {name : String}
    (h : VariableSpelled ts name rest) : rest.length < ts.length := by
  cases h with
  | plain _ _ _ => exact Nat.lt_succ_self _
  | subscripted _ _ hspelled =>
    obtain ⟨u, rfl, -⟩ := hspelled.exists_parts
    rw [List.length_cons, List.length_append]
    omega

/-- The tokens of a variable are parts of a name. -/
theorem Reader.VariableSpelled.nameParts {u rest : List Token} {name : String}
    (h : VariableSpelled (u ++ rest) name rest) : ∀ t ∈ u, t.NamePart := by
  obtain ⟨v, heq, hv⟩ := h.exists_parts
  rwa [List.append_cancel_right heq]

/-- The tokens of a list of variables are parts of their names and commas. -/
theorem Reader.VariablesSpelled.nameParts {u rest : List Token} {names : List String}
    (h : VariablesSpelled u names rest) : ∀ t ∈ u, t.NamePart ∨ t.written = "," := by
  induction h with
  | last hname _ => exact fun t ht => Or.inl (hname.nameParts t ht)
  | comma hname ht _ ih =>
    rw [List.forall_mem_append, List.forall_mem_cons]
    exact ⟨fun t' ht' => Or.inl (hname.nameParts t' ht'), Or.inr ht, ih⟩

theorem Reader.VariablesSpelled.notMem_parenTexts {u rest : List Token} {names : List String}
    (h : VariablesSpelled u names rest) : ∀ t ∈ u, t.written ∉ parenTexts := by
  intro t ht
  rcases h.nameParts t ht with hpart | hcomma
  · exact hpart.notMem_parenTexts
  · rw [hcomma]
    decide

/-- A name whose first letter was read before takes parts of a name. -/
theorem nameParts_of_withSubscript {u rest : List Token} {name s : String}
    (h : withSubscript name (u ++ rest) = .ok s rest) : ∀ t ∈ u, t.NamePart := by
  rcases withSubscript_eq_ok_iff.1 h with ⟨-, -, heq⟩ | ⟨ds, hspelled, -⟩
  · obtain rfl : u = [] := List.append_left_eq_self.1 heq.symm
    exact fun t ht => absurd ht List.not_mem_nil
  · obtain ⟨v, heq, hv⟩ := hspelled.exists_parts
    rwa [List.append_cancel_right heq]

theorem Reader.DeclarationSpelled.grouped {u rest : List Token} {names : List String}
    (h : DeclarationSpelled u names rest) : Grouped u := by
  cases h with
  | none _ => exact .nil
  | group hopen hclose hnames =>
    exact Grouped.parens hopen hclose (grouped_of_forall hnames.notMem_parenTexts)

/-- The tokens of a metavariable after its letter are grouped. -/
theorem grouped_of_metavariable {letter : MetaLetter} {u rest : List Token} {tree : Tree}
    (h : Reader.metavariable letter (u ++ rest) = .ok tree rest) : Grouped u := by
  obtain ⟨v, w, name, declared, rfl, hname, hdeclared, rfl⟩ := metavariable_parts h
  have hv := nameParts_of_withSubscript hname
  exact (grouped_of_forall fun t ht => (hv t ht).notMem_parenTexts).append hdeclared.grouped

theorem written_metavariable_notMem (letter : MetaLetter) :
    (Token.metavariable letter).written ∉ parenTexts := by
  cases letter <;> decide

/-! ## Phrases -/

section Phrases

variable {u rest : List Token} {tree : Tree}

/-- The tokens of a phrase of a term are grouped. -/
theorem TermDerivation.grouped {p : TermPhrase} (h : TermDerivation p u tree rest)
    (hplain : ∀ t ∈ u, t.Plain) : Grouped u := by
  induction h with
  | term _ _ ihfirst ihmore =>
    rw [List.forall_mem_append] at hplain
    exact (ihfirst hplain.1).append (ihmore hplain.2)
  | stop _ => exact .nil
  | step hop _ _ _ ihright ihmore =>
    obtain ⟨lexeme, precedence, rfl, -⟩ := Token.infixFunction?_eq_some hop
    rw [List.forall_mem_cons, List.forall_mem_append] at hplain
    exact Grouped.known hplain.1 ((ihright hplain.2.1).append (ihmore hplain.2.2))
  | name hname => exact grouped_of_forall fun t ht => (hname.nameParts t ht).notMem_parenTexts
  | parens hopen hclose _ ih =>
    rw [List.forall_mem_append, List.forall_mem_append] at hplain
    exact Grouped.parens hopen hclose (ih hplain.2.1)
  | application hopen hclose _ _ ih =>
    rw [List.forall_mem_cons, List.forall_mem_append, List.forall_mem_append] at hplain
    exact Grouped.known hplain.1 (Grouped.parens hopen hclose (ih hplain.2.2.1))
  | last _ _ ih => exact ih hplain
  | comma _ ht _ ih ihmore =>
    rw [List.forall_mem_append, List.forall_mem_cons] at hplain
    refine (ih hplain.1).append (.token ?_ (ihmore hplain.2.2))
    rw [ht]
    decide

theorem TermDerivation.balanced {p : TermPhrase} (h : TermDerivation p u tree rest)
    (hplain : ∀ t ∈ u, t.Plain) : Balanced u :=
  (h.grouped hplain).balanced

/-- The tokens of a phrase of a formula are grouped. -/
theorem FormulaDerivation.grouped {p : FormulaPhrase} (h : FormulaDerivation p u tree rest)
    (hplain : ∀ t ∈ u, t.Plain) : Grouped u := by
  induction h with
  | formula _ _ ihfirst ihmore =>
    rw [List.forall_mem_append] at hplain
    exact (ihfirst hplain.1).append (ihmore hplain.2)
  | stop _ => exact .nil
  | step hop _ _ _ ihright ihmore =>
    obtain ⟨lexeme, precedence, side, rfl⟩ := Token.infixConnective?_eq_some hop
    rw [List.forall_mem_cons, List.forall_mem_append] at hplain
    exact Grouped.known hplain.1 ((ihright hplain.2.1).append (ihmore hplain.2.2))
  | before _ ih =>
    rw [List.forall_mem_cons] at hplain
    exact Grouped.known hplain.1 (ih hplain.2)
  | quantified hname _ _ ih =>
    rw [List.forall_mem_cons, List.forall_mem_append] at hplain
    have hbound := grouped_of_forall fun t ht => (hname.nameParts t ht).notMem_parenTexts
    exact Grouped.known hplain.1 (hbound.append (ih hplain.2.2))
  | basicOperand _ ih => exact ih hplain
  | metavariable hread =>
    exact .token (written_metavariable_notMem _) (grouped_of_metavariable hread)
  | constant => exact Grouped.known (hplain _ List.mem_cons_self) .nil
  | predicate hopen hclose hargs _ =>
    rw [List.forall_mem_cons, List.forall_mem_append, List.forall_mem_append] at hplain
    exact Grouped.known hplain.1 (Grouped.parens hopen hclose (hargs.grouped hplain.2.2.1))
  | parens hopen hclose _ ih =>
    rw [List.forall_mem_append, List.forall_mem_append] at hplain
    exact Grouped.parens hopen hclose (ih hplain.2.1)
  | comparison hleft hright =>
    rw [List.forall_mem_append, List.forall_mem_cons] at hplain
    exact (hleft.grouped hplain.1).append
      (Grouped.known hplain.2.1 (hright.grouped hplain.2.2))

theorem FormulaDerivation.balanced {p : FormulaPhrase} (h : FormulaDerivation p u tree rest)
    (hplain : ∀ t ∈ u, t.Plain) : Balanced u :=
  (h.grouped hplain).balanced

end Phrases

/-! ## Pairs -/

/-- The last of the tokens is written as given. -/
def EndsWith (written : String) (ts : List Token) : Prop :=
  ts.getLast?.map Token.written = some written

section Pairs

variable {ts u v pre rest : List Token} {o t : Token} {text : String}

theorem not_endsWith_nil : ¬ EndsWith text [] := nofun

@[simp] theorem endsWith_concat : EndsWith text (u ++ [t]) ↔ t.written = text := by
  simp [EndsWith]

/-- What ends in another way has no part in how a list ends. -/
theorem endsWith_append (hu : ¬ EndsWith text u) : EndsWith text (u ++ v) ↔ EndsWith text v := by
  induction v using List.reverseRecOn with
  | nil => simpa [not_endsWith_nil] using hu
  | append_singleton v t _ => rw [← List.append_assoc, endsWith_concat, endsWith_concat]

theorem Reader.Opening.not_endsWith {form : Form} {us : List Token} (h : Opening form us)
    (htext : text ≠ "(") (u : List Token) : ¬ EndsWith text (u ++ us) := by
  cases h with
  | short ho =>
    rw [endsWith_concat, ho]
    exact htext.symm
  | @long l o _ ho =>
    rw [show u ++ [l, o] = (u ++ [l]) ++ [o] by simp, endsWith_concat, ho]
    exact htext.symm

theorem Reader.Closing.not_endsWith {form : Form} {vs : List Token} (h : Closing form vs)
    (htext : text ≠ ")") (u : List Token) : ¬ EndsWith text (u ++ vs) := by
  cases h with
  | short hc =>
    rw [endsWith_concat, hc]
    exact htext.symm
  | @long r c _ hc =>
    rw [show u ++ [r, c] = (u ++ [r]) ++ [c] by simp, endsWith_concat, hc]
    exact htext.symm

/-- A group is at its end after a parenthesis, not after a word for a side. -/
theorem Grouped.not_endsWith_rightWord (h : Grouped u) : ¬ EndsWith rightWord u := by
  induction h with
  | nil => exact not_endsWith_nil
  | @token t u ht _ ih =>
    have hword : t.written ≠ rightWord := fun heq => ht (by simp [heq, parenTexts])
    have hfirst : ¬ EndsWith rightWord [t] := by simpa [EndsWith] using hword
    exact fun hu => ih ((endsWith_append hfirst).1 hu)
  | @group form us u vs w hopen hclose _ _ _ ihrest =>
    have hgroup : ¬ EndsWith rightWord ((us ++ u) ++ vs) := hclose.not_endsWith (by decide) _
    intro hw
    rw [← List.append_assoc, ← List.append_assoc, endsWith_append hgroup] at hw
    exact ihrest hw

/-- A token stands in one of two lists if it stands in both together. -/
theorem exists_of_append_eq {α : Type} {a b pre rest : List α} {o : α}
    (h : a ++ b = pre ++ o :: rest) :
    (∃ mid, a = pre ++ o :: mid ∧ rest = mid ++ b) ∨
      ∃ pre', pre = a ++ pre' ∧ b = pre' ++ o :: rest := by
  rcases List.append_eq_append_iff.1 h with ⟨pre', hpre, hb⟩ | ⟨mid, ha, hmid⟩
  · exact Or.inr ⟨pre', hpre, hb⟩
  · cases mid with
    | nil => exact Or.inr ⟨[], by simpa using ha.symm, by simpa using hmid.symm⟩
    | cons o' mid =>
      obtain ⟨rfl, rfl⟩ := List.cons.inj hmid
      exact Or.inl ⟨mid, ha, rfl⟩

/-- An opening ends with its parenthesis, and the word before it tells the form. -/
theorem Reader.Opening.eq_concat {form : Form} {us mid : List Token} (h : Opening form us)
    (hus : us = pre ++ o :: mid) (ho : o.written = "(") :
    mid = [] ∧ (EndsWith leftWord pre ↔ form = .long) := by
  cases h with
  | short _ =>
    cases pre with
    | nil => exact ⟨(List.cons.inj hus).2.symm, by simp [not_endsWith_nil]⟩
    | cons p pre => simp at hus
  | @long l o' hl _ =>
    rcases pre with - | ⟨p, - | ⟨q, pre⟩⟩
    · obtain ⟨rfl, -⟩ := List.cons.inj hus
      exact absurd (hl.symm.trans ho) (by decide)
    · simp only [List.cons_append, List.nil_append, List.cons.injEq] at hus
      obtain ⟨rfl, rfl, rfl⟩ := hus
      exact ⟨rfl, by simp [EndsWith, hl]⟩
    · simp at hus

/-- No token of a closing parenthesis opens one. -/
theorem Reader.Closing.written_ne {form : Form} {vs : List Token} (h : Closing form vs) :
    ∀ t ∈ vs, t.written ≠ "(" := by
  cases h with
  | short hc =>
    rw [List.forall_mem_singleton, hc]
    decide
  | long hr hc =>
    rw [List.forall_mem_cons, List.forall_mem_singleton, hr, hc]
    decide

/-- At the opening parenthesis stands a group, which ends in the form in which it begins. -/
theorem Grouped.exists_of_opening (h : Grouped ts) (hts : ts = pre ++ o :: rest)
    (ho : o.written = "(") :
    ∃ form u vs post, Closing form vs ∧ Grouped u ∧ rest = u ++ (vs ++ post) ∧
      (EndsWith leftWord pre ↔ form = .long) := by
  induction h generalizing pre rest with
  | nil => cases pre <;> cases hts
  | @token t u ht _ ih =>
    cases pre with
    | nil =>
      obtain ⟨rfl, -⟩ := List.cons.inj hts
      exact absurd (by simp [ho, parenTexts]) ht
    | cons p pre =>
      obtain ⟨rfl, hu⟩ := List.cons.inj hts
      have hword : t.written ≠ leftWord := fun heq => ht (by simp [heq, parenTexts])
      have hfirst : ¬ EndsWith leftWord [t] := by simpa [EndsWith] using hword
      obtain ⟨form, u, vs, post, hclose, hu, hrest, hform⟩ := ih hu
      exact ⟨form, u, vs, post, hclose, hu, hrest,
        (endsWith_append (v := pre) hfirst).trans hform⟩
  | @group form us u vs w hopen hclose hgroup _ ihinside ihrest =>
    have hus : ¬ EndsWith leftWord us := hopen.not_endsWith (by decide) []
    rcases exists_of_append_eq hts with ⟨mid, hmid, rfl⟩ | ⟨pre, rfl, hinside⟩
    · -- The parenthesis opens this group.
      obtain ⟨rfl, hform⟩ := hopen.eq_concat hmid ho
      exact ⟨form, u, vs, w, hclose, hgroup, rfl, hform⟩
    · rw [endsWith_append hus]
      rcases exists_of_append_eq hinside with ⟨mid, hmid, rfl⟩ | ⟨pre, rfl, hafter⟩
      · obtain ⟨form', u', vs', post, hclose', hu', rfl, hform⟩ := ihinside hmid
        exact ⟨form', u', vs', post ++ (vs ++ w), hclose', hu', by simp, hform⟩
      · rcases exists_of_append_eq hafter with ⟨mid, rfl, -⟩ | ⟨pre, rfl, hw⟩
        · exact absurd ho (hclose.written_ne o (by simp))
        · rw [← List.append_assoc, endsWith_append (hclose.not_endsWith (by decide) u)]
          exact ihrest hw

/-- In grouped tokens a parenthesis opens in the long form exactly if the one that closes its group
is in the long form. -/
theorem Grouped.form_iff {inside post : List Token} {c : Token} (h : Grouped ts)
    (hts : ts = pre ++ o :: (inside ++ c :: post)) (ho : o.written = "(") (hc : c.written = ")")
    (hinside : Balanced inside) : EndsWith leftWord pre ↔ EndsWith rightWord inside := by
  obtain ⟨form, u, vs, post', hclose, hu, heq, hform⟩ := h.exists_of_opening hts ho
  rw [hform]
  -- The group found by its tokens is the one found by the levels of parentheses.
  cases hclose with
  | @short c' hc' =>
    obtain rfl := hinside.unique hu.balanced (.short hc) (.short hc') heq
    simpa using hu.not_endsWith_rightWord
  | @long r c' hr hc' =>
    have hbalanced : Balanced (u ++ [r]) :=
      hu.balanced.append (balanced_nil.cons (by rw [hr]; decide) (by rw [hr]; decide))
    have heq' : inside ++ ([c] ++ post) = (u ++ [r]) ++ ([c'] ++ post') := by simpa using heq
    obtain rfl := hinside.unique hbalanced (.short hc) (.short hc') heq'
    simpa using hr

end Pairs

end LatexLogic
