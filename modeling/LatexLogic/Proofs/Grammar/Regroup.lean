import LatexLogic.Proofs.Grammar.Following

/-!
# Groups in another form

Tokens are regrouped by writing their groups in another form, each in the short or the long one
(`Regrouped`). What is derived from tokens is derived from the regrouped ones too, and in front of
all tokens that are alike to those that remain (`TermDerivation.regrouped`,
`FormulaDerivation.regrouped`): no rule of a derivation asks for the form of a parenthesis.
-/

set_option autoImplicit false

namespace LatexLogic

open Reader

/-- The same tokens with groups in other forms. -/
inductive Regrouped : List Token → List Token → Prop where
  | nil : Regrouped [] []
  | token {t : Token} {u u' : List Token} :
      t.written ∉ parenTexts → Regrouped u u' → Regrouped (t :: u) (t :: u')
  | group {form form' : Form} {us us' u u' vs vs' w w' : List Token} :
      Opening form us → Closing form vs → Opening form' us' → Closing form' vs' →
      Regrouped u u' → Regrouped w w' →
      Regrouped (us ++ (u ++ (vs ++ w))) (us' ++ (u' ++ (vs' ++ w')))

section Regrouped

variable {u u' v w : List Token}

theorem Regrouped.grouped (h : Regrouped u u') : Grouped u := by
  induction h with
  | nil => exact .nil
  | token ht _ ih => exact .token ht ih
  | group hopen hclose _ _ _ _ ihinside ihrest => exact .group hopen hclose ihinside ihrest

/-- Grouped tokens can stay as they are. -/
theorem Grouped.regrouped (h : Grouped u) : Regrouped u u := by
  induction h with
  | nil => exact .nil
  | token ht _ ih => exact .token ht ih
  | group hopen hclose _ _ ihinside ihrest =>
    exact .group hopen hclose hopen hclose ihinside ihrest

/-! ## Parts of regrouped tokens -/

theorem Reader.Opening.exists_mem_parenTexts {form : Form} {us : List Token}
    (h : Opening form us) : ∃ t us', us = t :: us' ∧ t.written ∈ parenTexts := by
  cases h with
  | short ho => exact ⟨_, [], rfl, by simp [ho, parenTexts]⟩
  | long hl _ => exact ⟨_, [_], rfl, by simp [hl, parenTexts]⟩

theorem Reader.Closing.length_eq {form : Form} {vs vs' : List Token} (h : Closing form vs)
    (h' : Closing form vs') : vs.length = vs'.length := by
  cases h with
  | short _ =>
    cases h' with
    | short _ => rfl
  | long _ _ =>
    cases h' with
    | long _ _ => rfl

/-- No tokens are regrouped as none. -/
theorem Regrouped.eq_nil (h : Regrouped [] w) : w = [] := by
  generalize hu : ([] : List Token) = u at h
  cases h with
  | nil => rfl
  | token _ _ => cases hu
  | group hopen _ _ _ _ _ => exact absurd (List.append_eq_nil_iff.1 hu.symm).1 hopen.ne_nil

/-- A token outside parentheses stays. -/
theorem Regrouped.exists_of_cons {t : Token} (h : Regrouped (t :: u) w)
    (ht : t.written ∉ parenTexts) : ∃ u', w = t :: u' ∧ Regrouped u u' := by
  generalize hts : t :: u = ts at h
  cases h with
  | nil => cases hts
  | token _ hrest =>
    obtain ⟨rfl, rfl⟩ := List.cons.inj hts
    exact ⟨_, rfl, hrest⟩
  | group hopen _ _ _ _ _ =>
    obtain ⟨o, us', rfl, ho⟩ := hopen.exists_mem_parenTexts
    obtain ⟨rfl, -⟩ := List.cons.inj hts
    exact absurd ho ht

/-- A group is regrouped as a group, and what follows it by itself. -/
theorem Regrouped.exists_of_group {form : Form} {us vs : List Token} (hopen : Opening form us)
    (hclose : Closing form vs) (hu : Grouped u) (h : Regrouped (us ++ (u ++ (vs ++ v))) w) :
    ∃ form' us' u' vs' v', Opening form' us' ∧ Closing form' vs' ∧
      w = us' ++ (u' ++ (vs' ++ v')) ∧ Regrouped u u' ∧ Regrouped v v' := by
  generalize hts : us ++ (u ++ (vs ++ v)) = ts at h
  cases h with
  | nil => exact absurd (List.append_eq_nil_iff.1 hts).1 hopen.ne_nil
  | token ht _ =>
    obtain ⟨o, us', rfl, ho⟩ := hopen.exists_mem_parenTexts
    obtain ⟨rfl, -⟩ := List.cons.inj hts
    exact absurd ho ht
  | group hopen₁ hclose₁ hopen' hclose' hinside hrest =>
    -- The group that the tokens begin with is the one of the relation.
    obtain ⟨rfl, rfl, heq⟩ := hopen.unique hopen₁ hts
    obtain rfl := hu.balanced.unique hinside.grouped.balanced hclose hclose₁ heq
    obtain ⟨rfl, rfl⟩ :=
      List.append_inj (List.append_cancel_left heq) (hclose.length_eq hclose₁)
    exact ⟨_, _, _, _, _, hopen', hclose', rfl, hinside, hrest⟩

/-- Grouped tokens are regrouped apart from what follows them. -/
theorem Regrouped.exists_of_append (hu : Grouped u) (h : Regrouped (u ++ v) w) :
    ∃ u' v', w = u' ++ v' ∧ Regrouped u u' ∧ Regrouped v v' := by
  induction hu generalizing w with
  | nil => exact ⟨[], w, rfl, .nil, h⟩
  | token ht _ ih =>
    obtain ⟨x, rfl, hx⟩ := h.exists_of_cons ht
    obtain ⟨u', v', rfl, hu', hv'⟩ := ih hx
    exact ⟨_ :: u', v', rfl, .token ht hu', hv'⟩
  | group hopen hclose hinside _ _ ih =>
    rw [List.append_assoc, List.append_assoc, List.append_assoc] at h
    obtain ⟨form', us', u', vs', x, hopen', hclose', rfl, hu', hx⟩ :=
      h.exists_of_group hopen hclose hinside
    obtain ⟨w', v', rfl, hw', hv'⟩ := ih hx
    exact ⟨us' ++ (u' ++ (vs' ++ w')), v', by simp, .group hopen hclose hopen' hclose' hu' hw', hv'⟩

/-- A group alone is regrouped as a group. -/
theorem Regrouped.exists_of_parens {form : Form} {us vs : List Token} (hopen : Opening form us)
    (hclose : Closing form vs) (hu : Grouped u) (h : Regrouped (us ++ (u ++ vs)) w) :
    ∃ form' us' u' vs', Opening form' us' ∧ Closing form' vs' ∧ w = us' ++ (u' ++ vs') ∧
      Regrouped u u' := by
  rw [← List.append_nil vs] at h
  obtain ⟨form', us', u', vs', v', hopen', hclose', rfl, hu', hv'⟩ :=
    h.exists_of_group hopen hclose hu
  obtain rfl := hv'.eq_nil
  exact ⟨form', us', u', vs', hopen', hclose', by rw [List.append_nil], hu'⟩

/-- Tokens without any parenthesis stay as they are. -/
theorem Regrouped.eq_of_forall (h : Regrouped u w) (hu : ∀ t ∈ u, t.written ∉ parenTexts) :
    w = u := by
  induction u generalizing w with
  | nil => exact h.eq_nil
  | cons t u ih =>
    rw [List.forall_mem_cons] at hu
    obtain ⟨u', rfl, hu'⟩ := h.exists_of_cons hu.1
    rw [ih hu' hu.2]

/-- Regrouped tokens are alike in front of lists that are. -/
theorem Regrouped.alike {rest rest' : List Token} (h : Regrouped u u')
    (hplain : ∀ t ∈ u, t.Plain) (hplain' : ∀ t ∈ u', t.Plain) (hrest : Alike rest rest') :
    Alike (u ++ rest) (u' ++ rest') := by
  cases h with
  | nil => exact hrest
  | token ht _ => exact .cons ht
  | group hopen _ hopen' _ _ _ =>
    rw [List.append_assoc, List.append_assoc _ _ rest']
    exact hopen.alike hopen' (List.forall_mem_append.1 hplain).1
      (List.forall_mem_append.1 hplain').1

theorem Regrouped.termAlike {rest rest' : List Token} (h : Regrouped u u')
    (hplain : ∀ t ∈ u, t.Plain) (hplain' : ∀ t ∈ u', t.Plain) (hrest : TermAlike rest rest') :
    TermAlike (u ++ rest) (u' ++ rest') := by
  cases h with
  | nil => exact hrest
  | token _ _ => exact .cons
  | group hopen _ hopen' _ _ _ =>
    rw [List.append_assoc, List.append_assoc _ _ rest']
    exact (hopen.alike hopen' (List.forall_mem_append.1 hplain).1
      (List.forall_mem_append.1 hplain').1).toTermAlike

end Regrouped

/-! ## Derivations of regrouped tokens -/

section Derivations

variable {u u' rest rest' : List Token} {tree : Tree}

theorem Reader.VariablesSpelled.change_rest {names : List String}
    (h : VariablesSpelled u names rest) (hunderscore : nextIs "_" rest' = nextIs "_" rest)
    (hcomma : nextIs "," rest' = nextIs "," rest) : VariablesSpelled u names rest' := by
  induction h with
  | last hname hend => exact .last (hname.change_rest hunderscore.trans) (hcomma.trans hend)
  | comma hname ht _ ih => exact .comma (hname.change_rest id) ht (ih hunderscore hcomma)

/-- A declaration is spelled in either form. -/
theorem Reader.DeclarationSpelled.regrouped {names : List String}
    (h : DeclarationSpelled u names rest) (hplain : ∀ t ∈ u, t.Plain) (hu : Regrouped u u')
    (hplain' : ∀ t ∈ u', t.Plain) (hrest : Alike rest rest') :
    DeclarationSpelled u' names rest' := by
  cases h with
  | none hclosed =>
    obtain rfl := hu.eq_nil
    exact .none (hrest.opens.trans hclosed)
  | @group form us v vs _ _ hopen hclose hnames =>
    have hv := hnames.notMem_parenTexts
    obtain ⟨form', us', v', vs', hopen', hclose', rfl, hv'⟩ :=
      hu.exists_of_parens hopen hclose (grouped_of_forall hv)
    obtain rfl := hv'.eq_of_forall hv
    rw [List.forall_mem_append, List.forall_mem_append] at hplain hplain'
    exact .group hopen' hclose'
      (hnames.change_rest (hclose.alike hclose' hplain.2.2 hplain'.2.2).underscore
        (hclose.nextIs_comma_eq hclose' hplain.2.2 hplain'.2.2))

/-- What follows the letter of a metavariable is read in either form. -/
theorem metavariable_regrouped {letter : MetaLetter}
    (h : Reader.metavariable letter (u ++ rest) = .ok tree rest) (hplain : ∀ t ∈ u, t.Plain)
    (hu : Regrouped u u') (hplain' : ∀ t ∈ u', t.Plain) (hrest : Alike rest rest') :
    Reader.metavariable letter (u' ++ rest') = .ok tree rest' := by
  obtain ⟨v, w, name, declared, rfl, hname, hdeclared, rfl⟩ := metavariable_parts h
  have hv := fun t ht => (nameParts_of_withSubscript hname t ht).notMem_parenTexts
  obtain ⟨v', w', rfl, hv', hw'⟩ := hu.exists_of_append (grouped_of_forall hv)
  obtain rfl := hv'.eq_of_forall hv
  rw [List.forall_mem_append] at hplain hplain'
  have hmid := hw'.alike hplain.2 hplain'.2 hrest
  exact metavariable_eq_ok_iff.2 ⟨v', w', name, declared, by simp,
    withSubscript_change_rest hname hmid.underscore.trans,
    hdeclared.regrouped hplain.2 hw' hplain'.2 hrest, rfl⟩

/-- A phrase of a term is one in every form, in front of everything alike. -/
theorem TermDerivation.regrouped {p : TermPhrase} (h : TermDerivation p u tree rest)
    (hplain : ∀ t ∈ u, t.Plain) (hu : Regrouped u u') (hplain' : ∀ t ∈ u', t.Plain)
    (hrest : p.Alike rest rest') : TermDerivation p u' tree rest' := by
  -- In each case the regrouped tokens are cut where the derivation cuts its own. A part in front of
  -- another one has it and the remaining tokens after it, so that these have to be alike too.
  induction h generalizing u' rest' with
  | term hfirst _ ihfirst ihmore =>
    rw [List.forall_mem_append] at hplain
    obtain ⟨v', w', rfl, hv', hw'⟩ := hu.exists_of_append (hfirst.grouped hplain.1)
    rw [List.forall_mem_append] at hplain'
    have hmid := hw'.termAlike hplain.2 hplain'.2 hrest.termAlike
    exact .term (ihfirst hplain.1 hv' hplain'.1 hmid) (ihmore hplain.2 hw' hplain'.2 hrest)
  | stop hop =>
    obtain rfl := hu.eq_nil
    exact .stop ((hrest.termAlike.function _).trans hop)
  | step hop hadmits hright _ ihright ihmore =>
    obtain ⟨lexeme, precedence, rfl, -⟩ := Token.infixFunction?_eq_some hop
    rw [List.forall_mem_cons, List.forall_mem_append] at hplain
    obtain ⟨x, rfl, hx⟩ := hu.exists_of_cons hplain.1.notMem_parenTexts
    obtain ⟨v', w', rfl, hv', hw'⟩ := hx.exists_of_append (hright.grouped hplain.2.1)
    rw [List.forall_mem_cons, List.forall_mem_append] at hplain'
    have hmid := hw'.termAlike hplain.2.2 hplain'.2.2 hrest.termAlike
    exact .step hop hadmits (ihright hplain.2.1 hv' hplain'.2.1 hmid)
      (ihmore hplain.2.2 hw' hplain'.2.2 hrest)
  | name hname =>
    -- A name has braces at most, which stay.
    obtain rfl := hu.eq_of_forall fun t ht => (hname.nameParts t ht).notMem_parenTexts
    exact .name (hname.change_rest hrest.termAlike.underscore.trans)
  | parens hopen hclose hinside ih =>
    rw [List.forall_mem_append, List.forall_mem_append] at hplain
    obtain ⟨form', us', v', vs', hopen', hclose', rfl, hv'⟩ :=
      hu.exists_of_parens hopen hclose (hinside.grouped hplain.2.1)
    rw [List.forall_mem_append, List.forall_mem_append] at hplain'
    exact .parens hopen' hclose' (ih hplain.2.1 hv' hplain'.2.1
      (hclose.alike hclose' hplain.2.2 hplain'.2.2).toTermAlike)
  | application hopen hclose hargs harity ih =>
    rw [List.forall_mem_cons, List.forall_mem_append, List.forall_mem_append] at hplain
    obtain ⟨x, rfl, hx⟩ := hu.exists_of_cons hplain.1.notMem_parenTexts
    obtain ⟨form', us', v', vs', hopen', hclose', rfl, hv'⟩ :=
      hx.exists_of_parens hopen hclose (hargs.grouped hplain.2.2.1)
    rw [List.forall_mem_cons, List.forall_mem_append, List.forall_mem_append] at hplain'
    exact .application hopen' hclose' (ih hplain.2.2.1 hv' hplain'.2.2.1
      (hclose.alike_arguments hclose' hplain.2.2.2 hplain'.2.2.2)) harity
  | last _ hend ih =>
    have harg := ih hplain hu hplain' (ArgumentKind.alike_phrase hrest.1)
    exact .last harg (hrest.2.trans hend)
  | comma harg ht _ ih ihmore =>
    rw [List.forall_mem_append, List.forall_mem_cons] at hplain
    obtain ⟨v', x, rfl, hv', hx⟩ := hu.exists_of_append (harg.grouped hplain.1)
    obtain ⟨w', rfl, hw'⟩ := hx.exists_of_cons (by rw [ht]; decide)
    rw [List.forall_mem_append, List.forall_mem_cons] at hplain'
    exact .comma (ih hplain.1 hv' hplain'.1 (ArgumentKind.alike_phrase .cons)) ht
      (ihmore hplain.2.2 hw' hplain'.2.2 hrest)

/-- A phrase of a formula is one in every form, in front of everything alike. -/
theorem FormulaDerivation.regrouped {p : FormulaPhrase} (h : FormulaDerivation p u tree rest)
    (hplain : ∀ t ∈ u, t.Plain) (hu : Regrouped u u') (hplain' : ∀ t ∈ u', t.Plain)
    (hrest : Alike rest rest') : FormulaDerivation p u' tree rest' := by
  induction h generalizing u' rest' with
  | formula hfirst _ ihfirst ihmore =>
    rw [List.forall_mem_append] at hplain
    obtain ⟨v', w', rfl, hv', hw'⟩ := hu.exists_of_append (hfirst.grouped hplain.1)
    rw [List.forall_mem_append] at hplain'
    have hmid := hw'.alike hplain.2 hplain'.2 hrest
    exact .formula (ihfirst hplain.1 hv' hplain'.1 hmid) (ihmore hplain.2 hw' hplain'.2 hrest)
  | stop hop =>
    obtain rfl := hu.eq_nil
    exact .stop ((hrest.connective _).trans hop)
  | step hop hadmits hright _ ihright ihmore =>
    obtain ⟨lexeme, precedence, side, rfl⟩ := Token.infixConnective?_eq_some hop
    rw [List.forall_mem_cons, List.forall_mem_append] at hplain
    obtain ⟨x, rfl, hx⟩ := hu.exists_of_cons hplain.1.notMem_parenTexts
    obtain ⟨v', w', rfl, hv', hw'⟩ := hx.exists_of_append (hright.grouped hplain.2.1)
    rw [List.forall_mem_cons, List.forall_mem_append] at hplain'
    have hmid := hw'.alike hplain.2.2 hplain'.2.2 hrest
    exact .step hop hadmits (ihright hplain.2.1 hv' hplain'.2.1 hmid)
      (ihmore hplain.2.2 hw' hplain'.2.2 hrest)
  | before _ ih =>
    rw [List.forall_mem_cons] at hplain
    obtain ⟨v', rfl, hv'⟩ := hu.exists_of_cons hplain.1.notMem_parenTexts
    rw [List.forall_mem_cons] at hplain'
    exact .before (ih hplain.2 hv' hplain'.2 hrest)
  | quantified hname heigen _ ih =>
    rw [List.forall_mem_cons, List.forall_mem_append] at hplain
    obtain ⟨x, rfl, hx⟩ := hu.exists_of_cons hplain.1.notMem_parenTexts
    have hbound := fun t ht => (hname.nameParts t ht).notMem_parenTexts
    obtain ⟨v', w', rfl, hv', hw'⟩ := hx.exists_of_append (grouped_of_forall hbound)
    obtain rfl := hv'.eq_of_forall hbound
    rw [List.forall_mem_cons, List.forall_mem_append] at hplain'
    have hmid := hw'.alike hplain.2.2 hplain'.2.2 hrest
    exact .quantified (hname.change_rest hmid.underscore.trans) heigen
      (ih hplain.2.2 hw' hplain'.2.2 hrest)
  | basicOperand _ ih => exact .basicOperand (ih hplain hu hplain' hrest)
  | metavariable hread =>
    obtain ⟨v', rfl, hv'⟩ := hu.exists_of_cons (written_metavariable_notMem _)
    rw [List.forall_mem_cons] at hplain hplain'
    exact .metavariable (metavariable_regrouped hread hplain.2 hv' hplain'.2 hrest)
  | constant =>
    rw [List.forall_mem_singleton] at hplain
    obtain ⟨v', rfl, hv'⟩ := hu.exists_of_cons hplain.notMem_parenTexts
    obtain rfl := hv'.eq_nil
    exact .constant
  | predicate hopen hclose hargs harity =>
    rw [List.forall_mem_cons, List.forall_mem_append, List.forall_mem_append] at hplain
    obtain ⟨x, rfl, hx⟩ := hu.exists_of_cons hplain.1.notMem_parenTexts
    obtain ⟨form', us', v', vs', hopen', hclose', rfl, hv'⟩ :=
      hx.exists_of_parens hopen hclose (hargs.grouped hplain.2.2.1)
    rw [List.forall_mem_cons, List.forall_mem_append, List.forall_mem_append] at hplain'
    exact .predicate hopen' hclose' (hargs.regrouped hplain.2.2.1 hv' hplain'.2.2.1
      (hclose.alike_arguments hclose' hplain.2.2.2 hplain'.2.2.2)) harity
  | parens hopen hclose hinside ih =>
    rw [List.forall_mem_append, List.forall_mem_append] at hplain
    obtain ⟨form', us', v', vs', hopen', hclose', rfl, hv'⟩ :=
      hu.exists_of_parens hopen hclose (hinside.grouped hplain.2.1)
    rw [List.forall_mem_append, List.forall_mem_append] at hplain'
    exact .parens hopen' hclose'
      (ih hplain.2.1 hv' hplain'.2.1 (hclose.alike hclose' hplain.2.2 hplain'.2.2))
  | comparison hleft hright =>
    rw [List.forall_mem_append, List.forall_mem_cons] at hplain
    obtain ⟨v', x, rfl, hv', hx⟩ := hu.exists_of_append (hleft.grouped hplain.1)
    obtain ⟨w', rfl, hw'⟩ := hx.exists_of_cons hplain.2.1.notMem_parenTexts
    rw [List.forall_mem_append, List.forall_mem_cons] at hplain'
    exact .comparison (hleft.regrouped hplain.1 hv' hplain'.1 .cons)
      (hright.regrouped hplain.2.2 hw' hplain'.2.2 hrest.toTermAlike)

/-- A phrase of a term is one in front of everything alike. -/
theorem TermDerivation.change_rest {p : TermPhrase} (h : TermDerivation p u tree rest)
    (hplain : ∀ t ∈ u, t.Plain) (hrest : p.Alike rest rest') : TermDerivation p u tree rest' :=
  h.regrouped hplain (h.grouped hplain).regrouped hplain hrest

/-- A phrase of a formula is one in front of everything alike. -/
theorem FormulaDerivation.change_rest {p : FormulaPhrase} (h : FormulaDerivation p u tree rest)
    (hplain : ∀ t ∈ u, t.Plain) (hrest : Alike rest rest') : FormulaDerivation p u tree rest' :=
  h.regrouped hplain (h.grouped hplain).regrouped hplain hrest

end Derivations

end LatexLogic
