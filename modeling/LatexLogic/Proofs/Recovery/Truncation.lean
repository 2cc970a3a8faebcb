import LatexLogic.Proofs.Grammar.Regroup

/-!
# Phrases that are cut short

What a reader answers on the first tokens of a phrase. For names, declarations and terms it is
always the same: the reader comes to the end of the tokens, and either what it has is a phrase or
something is missing there (`ReachesEnd`). It never takes offence at a token, because each token is
one with which a phrase goes on (`TermDerivation.endsAt`). The word that opens the long form of a
parenthesis is the one token at which a text cannot be cut in this way: without the parenthesis after
it, it is an unexpected token.

Part of a phrase may be whole while the phrase is not. Such a part stands in front of fewer tokens
than before, and then it is read as before (`TermDerivation.truncate`), since all that a reader asks
of the remaining tokens is that they do not go on in a certain way.
-/

set_option autoImplicit false

namespace LatexLogic

open Reader

/-! ## Prefixes -/

section Prefix

variable {α : Type} {q u v : List α}

/-- What is at the front of two lists is at the front of the first, or has the first at its front. -/
theorem prefix_append_cases (h : q <+: u ++ v) :
    q <+: u ∨ ∃ q', q = u ++ q' ∧ q' <+: v := by
  obtain ⟨s, hs⟩ := h
  rcases List.append_eq_append_iff.1 hs with ⟨mid, rfl, -⟩ | ⟨mid, rfl, rfl⟩
  · exact Or.inl (List.prefix_append q mid)
  · exact Or.inr ⟨mid, rfl, List.prefix_append mid s⟩

/-- The same with a token between the two lists. -/
theorem prefix_append_cons_cases {t : α} (h : q <+: u ++ t :: v) :
    q <+: u ∨ ∃ q', q = u ++ t :: q' ∧ q' <+: v := by
  rcases prefix_append_cases h with hu | ⟨q', rfl, hmore⟩
  · exact Or.inl hu
  · rcases List.prefix_cons_iff.1 hmore with rfl | ⟨q', rfl, hv⟩
    · exact Or.inl (by rw [List.append_nil])
    · exact Or.inr ⟨q', rfl, hv⟩

theorem prefix_behind (w : List α) (h : u <+: v) : w ++ u <+: w ++ v :=
  (List.prefix_append_right_inj w).2 h

theorem prefix_behind_cons (a : α) (w : List α) (h : u <+: v) : a :: (w ++ u) <+: a :: (w ++ v) :=
  List.cons_prefix_cons.2 ⟨rfl, prefix_behind w h⟩

variable {rest rest' : List Token}

theorem nextIs_of_isPrefix {text : String} (h : rest' <+: rest) (hnext : nextIs text rest = false) :
    nextIs text rest' = false := by
  cases rest' with
  | nil => rfl
  | cons t rest' =>
    obtain ⟨s, rfl⟩ := h
    exact hnext

theorem continuing?_of_isPrefix {operator? : Token → Option InfixOperator} {m : Threshold}
    (h : rest' <+: rest) (hop : continuing? operator? m rest = none) :
    continuing? operator? m rest' = none := by
  cases rest' with
  | nil => rfl
  | cons t rest' =>
    obtain ⟨s, rfl⟩ := h
    exact hop

theorem opensWith_of_isPrefix (h : rest' <+: rest) (hclosed : opensWith "(" rest = false) :
    opensWith "(" rest' = false := by
  rw [opensWith, Bool.or_eq_false_iff, Bool.and_eq_false_iff] at hclosed ⊢
  refine ⟨nextIs_of_isPrefix h hclosed.1,
    hclosed.2.imp (nextIs_of_isPrefix h) (nextIs_of_isPrefix ?_)⟩
  obtain ⟨s, rfl⟩ := h
  cases rest' with
  | nil => exact List.nil_prefix
  | cons t rest' => exact List.prefix_append rest' s

/-- Tokens end as the last part of them does. -/
theorem not_endsWith_of_append {text : String} {u v : List Token}
    (h : ¬ EndsWith text (u ++ v)) : ¬ EndsWith text v := by
  induction v using List.reverseRecOn with
  | nil => exact not_endsWith_nil
  | append_singleton v t _ => rwa [← List.append_assoc, endsWith_concat] at *

theorem not_endsWith_of_cons {text : String} {t : Token} {v : List Token}
    (h : ¬ EndsWith text (t :: v)) : ¬ EndsWith text v :=
  not_endsWith_of_append (List.singleton_append ▸ h)

end Prefix

/-! ## In front of fewer tokens -/

section Truncate

variable {u rest rest' : List Token}

theorem Reader.VariableSpelled.truncate {name : String} (h : VariableSpelled (u ++ rest) name rest)
    (hrest : rest' <+: rest) : VariableSpelled (u ++ rest') name rest' :=
  h.change_rest (nextIs_of_isPrefix hrest)

theorem withSubscript_truncate {name s : String}
    (h : withSubscript name (u ++ rest) = .ok s rest) (hrest : rest' <+: rest) :
    withSubscript name (u ++ rest') = .ok s rest' :=
  withSubscript_change_rest h (nextIs_of_isPrefix hrest)

theorem Reader.VariablesSpelled.truncate {names : List String} (h : VariablesSpelled u names rest)
    (hrest : rest' <+: rest) : VariablesSpelled u names rest' := by
  induction h with
  | last hname hend => exact .last (hname.truncate hrest) (nextIs_of_isPrefix hrest hend)
  | @comma t u v rest name names hname ht _ ih =>
    exact .comma (hname.truncate (prefix_behind_cons t v hrest)) ht (ih hrest)

theorem Reader.DeclarationSpelled.truncate {names : List String}
    (h : DeclarationSpelled u names rest) (hrest : rest' <+: rest) :
    DeclarationSpelled u names rest' := by
  cases h with
  | none hclosed => exact .none (opensWith_of_isPrefix hrest hclosed)
  | @group form us u vs _ _ hopen hclose hnames =>
    exact .group hopen hclose (hnames.truncate (prefix_behind vs hrest))

theorem metavariable_truncate {letter : MetaLetter} {tree : Tree}
    (h : Reader.metavariable letter (u ++ rest) = .ok tree rest) (hrest : rest' <+: rest) :
    Reader.metavariable letter (u ++ rest') = .ok tree rest' := by
  obtain ⟨v, w, name, declared, rfl, hname, hdeclared, rfl⟩ := metavariable_parts h
  rw [metavariable_eq_ok_iff]
  have hname' := withSubscript_truncate hname (prefix_behind w hrest)
  exact ⟨v, w, name, declared, by simp, hname', hdeclared.truncate hrest, rfl⟩

/-- A phrase of a term is one in front of fewer tokens. -/
theorem TermDerivation.truncate {p : TermPhrase} {tree : Tree} (h : TermDerivation p u tree rest)
    (hrest : rest' <+: rest) : TermDerivation p u tree rest' := by
  induction h generalizing rest' with
  | term _ _ ihfirst ihmore => exact .term (ihfirst (prefix_behind _ hrest)) (ihmore hrest)
  | stop hop => exact .stop (continuing?_of_isPrefix hrest hop)
  | step hop hadmits _ _ ihright ihmore =>
    exact .step hop hadmits (ihright (prefix_behind _ hrest)) (ihmore hrest)
  | name hname => exact .name (hname.truncate hrest)
  | parens hopen hclose _ ih => exact .parens hopen hclose (ih (prefix_behind _ hrest))
  | application hopen hclose _ harity ih =>
    exact .application hopen hclose (ih (prefix_behind _ hrest)) harity
  | last _ hend ih => exact .last (ih hrest) (nextIs_of_isPrefix hrest hend)
  | comma _ ht _ ih ihmore =>
    exact .comma (ih (prefix_behind_cons _ _ hrest)) ht (ihmore hrest)

/-- A phrase of a formula is one in front of fewer tokens. -/
theorem FormulaDerivation.truncate {p : FormulaPhrase} {tree : Tree}
    (h : FormulaDerivation p u tree rest) (hrest : rest' <+: rest) :
    FormulaDerivation p u tree rest' := by
  induction h generalizing rest' with
  | formula _ _ ihfirst ihmore => exact .formula (ihfirst (prefix_behind _ hrest)) (ihmore hrest)
  | stop hop => exact .stop (continuing?_of_isPrefix hrest hop)
  | step hop hadmits _ _ ihright ihmore =>
    exact .step hop hadmits (ihright (prefix_behind _ hrest)) (ihmore hrest)
  | before _ ih => exact .before (ih hrest)
  | quantified hname heigen _ ih =>
    exact .quantified (hname.truncate (prefix_behind _ hrest)) heigen (ih hrest)
  | basicOperand _ ih => exact .basicOperand (ih hrest)
  | metavariable hread => exact .metavariable (metavariable_truncate hread hrest)
  | constant => exact .constant
  | predicate hopen hclose hargs harity =>
    exact .predicate hopen hclose (hargs.truncate (prefix_behind _ hrest)) harity
  | parens hopen hclose _ ih => exact .parens hopen hclose (ih (prefix_behind _ hrest))
  | comparison hleft hright =>
    exact .comparison (hleft.truncate (prefix_behind_cons _ _ hrest)) (hright.truncate hrest)

end Truncate

/-! ## Outcomes at the end -/

/-- Something is missing at the end of the tokens. -/
def Missing {α : Type} (outcome : EStateM.Result Failure (List Token) α) : Prop :=
  ∃ expected rest, outcome = .error (.fault (.unexpectedEnd expected)) rest

/-- Reading comes to the end of the tokens: none is left, or something is missing. -/
def ReachesEnd {α : Type} (outcome : EStateM.Result Failure (List Token) α) : Prop :=
  (∃ a, outcome = .ok a []) ∨ Missing outcome

section Outcomes

variable {α β : Type} {x : Reader α} {f : α → Reader β} {ts us : List Token}

theorem Missing.bind (h : Missing (x ts)) (f : α → Reader β) : Missing ((x >>= f) ts) := by
  obtain ⟨expected, rest, hread⟩ := h
  exact ⟨expected, rest, bind_of_eq_error hread⟩

/-- What reads on at the end of the tokens decides the outcome. -/
theorem ReachesEnd.bind (h : ReachesEnd (x ts)) (hf : ∀ a, ReachesEnd (f a [])) :
    ReachesEnd ((x >>= f) ts) := by
  rcases h with ⟨a, hread⟩ | hmissing
  · rw [bind_of_eq_ok hread]
    exact hf a
  · exact Or.inr (hmissing.bind f)

theorem ReachesEnd.bind_missing (h : ReachesEnd (x ts)) (hf : ∀ a, Missing (f a [])) :
    Missing ((x >>= f) ts) := by
  rcases h with ⟨a, hread⟩ | hmissing
  · rw [bind_of_eq_ok hread]
    exact hf a
  · exact hmissing.bind f

theorem reachesEnd_pure (a : α) : ReachesEnd ((pure a : Reader α) []) := Or.inl ⟨a, rfl⟩

theorem missing_fail (expected : Option String) :
    Missing ((fail (.unexpectedEnd expected) : Reader α) ts) := ⟨expected, ts, rfl⟩

theorem missing_next : Missing (next []) := ⟨none, [], rfl⟩

theorem missing_expect (written : String) : Missing (expect written []) := ⟨some written, [], rfl⟩

theorem ReachesEnd.list (h : ReachesEnd (x ts)) : ReachesEnd (list x ts) :=
  h.bind fun a => Or.inl ⟨[a], rfl⟩

theorem ReachesEnd.list_of_comma {t : Token} {a : α} (hforward : x.Forward)
    (hread : x ts = .ok a (t :: us)) (ht : t.written = ",") (h : ReachesEnd (Reader.list x us)) :
    ReachesEnd (Reader.list x ts) := by
  rw [Reader.list_of_comma hforward hread ht]
  exact h.bind fun as => reachesEnd_pure (a :: as)

end Outcomes

/-! ## Parentheses -/

section Parentheses

variable {form : Form} {us u vs q : List Token}

theorem missing_close_nil (form : Form) : Missing (form.close []) := by
  cases form with
  | short => exact missing_expect ")"
  | long => exact (missing_expect rightWord).bind _

theorem missing_close (hclose : Closing form vs) (hq : q <+: vs) (hne : q ≠ vs) :
    Missing (form.close q) := by
  cases hclose with
  | short _ =>
    rcases List.prefix_cons_iff.1 hq with rfl | ⟨q', rfl, hnil⟩
    · exact missing_expect ")"
    · exact absurd (by rw [List.prefix_nil.1 hnil]) hne
  | long hr _ =>
    rcases List.prefix_cons_iff.1 hq with rfl | ⟨q', rfl, hq'⟩
    · exact (missing_expect rightWord).bind _
    · rcases List.prefix_cons_iff.1 hq' with rfl | ⟨q'', rfl, hnil⟩
      · rw [Form.close, bind_of_eq_ok (expect_eq_ok_iff.2 ⟨rfl, hr⟩)]
        exact missing_expect ")"
      · exact absurd (by rw [List.prefix_nil.1 hnil]) hne

/-- Of the first tokens of an opening parenthesis the word before it cannot stand alone. -/
theorem Reader.Opening.eq_nil_or_eq (hopen : Opening form us) (hq : q <+: us)
    (hleft : ¬ EndsWith leftWord q) : q = [] ∨ q = us := by
  cases hopen with
  | short _ =>
    rcases List.prefix_cons_iff.1 hq with rfl | ⟨q', rfl, hnil⟩
    · exact Or.inl rfl
    · exact Or.inr (by rw [List.prefix_nil.1 hnil])
  | @long l o hl _ =>
    rcases List.prefix_cons_iff.1 hq with rfl | ⟨q', rfl, hq'⟩
    · exact Or.inl rfl
    · rcases List.prefix_cons_iff.1 hq' with rfl | ⟨q'', rfl, hnil⟩
      · exact absurd (by simpa [EndsWith] using hl) hleft
      · exact Or.inr (by rw [List.prefix_nil.1 hnil])

/-- Part of a text in parentheses is none, or the opening one and part of what follows. -/
theorem Reader.Opening.prefix_cases {v : List Token} (hopen : Opening form us)
    (hq : q <+: us ++ v) (hleft : ¬ EndsWith leftWord q) :
    q = [] ∨ ∃ q', q = us ++ q' ∧ q' <+: v := by
  rcases prefix_append_cases hq with hus | hinside
  · rcases hopen.eq_nil_or_eq hus hleft with rfl | rfl
    · exact Or.inl rfl
    · exact Or.inr ⟨[], by rw [List.append_nil], List.nil_prefix⟩
  · exact Or.inr hinside

/-- A text in parentheses that is cut short is not closed. -/
theorem missing_parenthesised {α : Type} {inner : Reader α} (hopen : Opening form us)
    (hclose : Closing form vs)
    (hinside : ∀ q, q <+: u → ¬ EndsWith leftWord q → ReachesEnd (inner q))
    (hwhole : ∀ rest, rest <+: vs → ∃ a, inner (u ++ rest) = .ok a rest)
    (hq : q <+: us ++ (u ++ vs)) (hne : q ≠ us ++ (u ++ vs)) (hleft : ¬ EndsWith leftWord q) :
    Missing (parenthesised inner q) := by
  rcases hopen.prefix_cases hq hleft with rfl | ⟨q', rfl, hq'⟩
  · exact ⟨some "(", [], rfl⟩
  · rw [parenthesised_of_opening hopen]
    rcases prefix_append_cases hq' with hu | ⟨q'', rfl, hvs⟩
    · have hinner := hinside q' hu (not_endsWith_of_append hleft)
      exact hinner.bind_missing fun a => (missing_close_nil form).bind _
    · obtain ⟨a, hread⟩ := hwhole q'' hvs
      rw [bind_of_eq_ok hread]
      exact (missing_close hclose hvs fun heq => hne (by rw [heq])).bind _

end Parentheses

/-! ## Names -/

section Names

variable {u rest q : List Token}

theorem missing_subscript {ds : List Char} (h : SubscriptSpelled (u ++ rest) ds rest)
    (hq : q <+: u) (hne : q ≠ u) : Missing (subscript q) := by
  generalize hts : u ++ rest = ts at h
  cases h with
  | @digit x d _ hu hd =>
    obtain rfl : u = [x, .char d] := List.append_cancel_right hts
    rcases List.prefix_cons_iff.1 hq with rfl | ⟨q', rfl, hq'⟩
    · exact (missing_expect "_").bind _
    · rw [subscript, bind_of_eq_ok (expect_eq_ok_iff.2 ⟨rfl, hu⟩)]
      rcases List.prefix_cons_iff.1 hq' with rfl | ⟨q'', rfl, hnil⟩
      · exact missing_fail none
      · exact absurd (by rw [List.prefix_nil.1 hnil]) hne
  | @group x o c _ rest hu ho hds hall hc =>
    obtain rfl : u = x :: o :: (ds.map Token.char ++ [c]) :=
      List.append_cancel_right (hts.trans (by simp))
    rcases List.prefix_cons_iff.1 hq with rfl | ⟨q', rfl, hq'⟩
    · exact (missing_expect "_").bind _
    rw [subscript, bind_of_eq_ok (expect_eq_ok_iff.2 ⟨rfl, hu⟩)]
    rcases List.prefix_cons_iff.1 hq' with rfl | ⟨q'', rfl, hq''⟩
    · exact missing_fail none
    have hopen : digitOf? o = none := digitOf?_eq_none fun d hd =>
      ho ▸ singleton_ne_of_isDecimalDigit (c := '\x7b') (by decide) hd
    simp only [peek?_bind, List.head?_cons, hopen]
    rw [braced, bind_of_eq_ok (expect_eq_ok_iff.2 ⟨rfl, ho⟩)]
    -- The digits that are there make up a number, if there are any.
    rcases List.prefix_concat_iff.1 hq'' with rfl | hdigits
    · exact absurd rfl hne
    obtain ⟨ds', hpre, rfl⟩ := List.prefix_map_iff.1 hdigits
    have hinteger : ReachesEnd (integer (ds'.map Token.char)) := by
      by_cases hds' : ds' = []
      · rw [hds']
        exact Or.inr ⟨none, [], rfl⟩
      · refine Or.inl ⟨String.ofList ds', integer_eq_ok_iff.2 ⟨ds', hds', ?_, ?_, rfl, rfl⟩⟩
        · rw [List.append_nil]
        · exact fun d hd => hall d (hpre.mem hd)
    exact hinteger.bind_missing fun a => (missing_expect "\x7d").bind _

theorem reachesEnd_withSubscript {name s : String}
    (h : withSubscript name (u ++ rest) = .ok s rest) (hq : q <+: u) :
    ReachesEnd (withSubscript name q) := by
  by_cases hne : q = u
  · have hread := withSubscript_truncate h (List.nil_prefix (l := rest))
    rw [List.append_nil] at hread
    exact Or.inl ⟨s, hne ▸ hread⟩
  cases q with
  | nil => exact reachesEnd_pure name
  | cons x q =>
    rcases withSubscript_eq_ok_iff.1 h with ⟨-, -, heq⟩ | ⟨ds, hspelled, -⟩
    · obtain rfl : u = [] := List.append_left_eq_self.1 heq.symm
      cases List.prefix_nil.1 hq
    · have hmissing := missing_subscript hspelled hq hne
      have hnext : nextIs "_" (x :: q) = true := by
        obtain ⟨s, rfl⟩ := hq
        generalize hts : (x :: q) ++ s ++ rest = ts at hspelled
        cases hspelled with
        | digit _ hu _ =>
          rw [nextIs_cons, (List.cons.inj hts).1, hu]
          rfl
        | group _ hu _ _ _ _ =>
          rw [nextIs_cons, (List.cons.inj hts).1, hu]
          rfl
      simp only [withSubscript, get_bind, hnext, if_true]
      exact Or.inr (hmissing.bind _)

/-- The letter of a variable tells its class. -/
theorem isEigenvariable_of_spelled {c : Char} {ts : List Token} {name : String}
    (h : VariableSpelled (.char c :: ts) name rest) : isEigenvariable name = isEigenLetter c := by
  cases h with
  | plain _ hc _ => simp [isEigenvariable, isVariableOf, isSubscriptPart]
  | subscripted _ hc hspelled => simp [isEigenvariable, isVariableOf, hspelled.isSubscriptPart]

/-- The first tokens of a variable are a variable of the same class, or something is missing. -/
theorem variableName_of_isPrefix {name : String} (h : VariableSpelled (u ++ rest) name rest)
    (hq : q <+: u) : Missing (variableName q) ∨
      ∃ name', variableName q = .ok name' [] ∧ isEigenvariable name' = isEigenvariable name := by
  cases q with
  | nil => exact Or.inl (missing_next.bind _)
  | cons x q =>
    obtain ⟨s, rfl⟩ := hq
    have hread := variableName_eq_ok_iff.2 h
    obtain ⟨c, us, hts, hc⟩ := h.exists_letter
    obtain ⟨rfl, rfl⟩ := List.cons.inj hts
    have hname : ∀ ts, variableName (.char c :: ts) = withSubscript (String.singleton c) ts := by
      intro ts
      rw [variableName, bind_of_eq_ok (next_eq_ok_iff.2 rfl)]
      simp only [variableLetter?, if_pos hc]
    have hclass := isEigenvariable_of_spelled h
    rw [List.cons_append, List.cons_append, hname] at hread
    rw [hname]
    rcases reachesEnd_withSubscript hread (List.prefix_append q s) with ⟨name', hname'⟩ | hmissing
    · refine Or.inr ⟨name', hname', ?_⟩
      rw [← hname] at hname'
      rw [hclass, isEigenvariable_of_spelled (variableName_eq_ok_iff.1 hname')]
    · exact Or.inl hmissing

theorem reachesEnd_variableName {name : String} (h : VariableSpelled (u ++ rest) name rest)
    (hq : q <+: u) : ReachesEnd (variableName q) := by
  rcases variableName_of_isPrefix h hq with hmissing | ⟨name', hread, -⟩
  · exact Or.inr hmissing
  · exact Or.inl ⟨name', hread⟩

theorem Reader.VariablesSpelled.reachesEnd {names : List String} (h : VariablesSpelled u names rest)
    (hq : q <+: u) : ReachesEnd (list variableName q) := by
  induction h generalizing q with
  | last hname _ => exact (reachesEnd_variableName hname hq).list
  | @comma t u v rest name names hname ht _ ih =>
    rcases prefix_append_cons_cases hq with hu | ⟨q, rfl, hv⟩
    · exact (reachesEnd_variableName hname hu).list
    · have hmore : t :: q <+: t :: (v ++ rest) :=
        List.cons_prefix_cons.2 ⟨rfl, hv.trans (List.prefix_append v rest)⟩
      have hread := variableName_eq_ok_iff.2 (hname.truncate hmore)
      exact (ih hv).list_of_comma forward_variableName hread ht

theorem Reader.DeclarationSpelled.reachesEnd {names : List String}
    (h : DeclarationSpelled u names rest) (hq : q <+: u) (hleft : ¬ EndsWith leftWord q) :
    ReachesEnd (declaration q) := by
  by_cases hne : q = u
  · have hread := declaration_eq_ok_iff.2 ⟨u, rfl, h.truncate (List.nil_prefix (l := rest))⟩
    rw [List.append_nil] at hread
    exact Or.inl ⟨names, hne ▸ hread⟩
  cases h with
  | none _ => exact absurd (List.prefix_nil.1 hq) hne
  | @group form us u vs _ _ hopen hclose hnames =>
    have hmissing : Missing (parenthesised (list variableName) q) := by
      refine missing_parenthesised hopen hclose (fun _ hq _ => hnames.reachesEnd hq) ?_ hq hne hleft
      intro rest' hrest'
      exact ⟨names, list_variableName_eq_ok_iff.2
        ⟨u, rfl, hnames.truncate (hrest'.trans (List.prefix_append vs rest))⟩⟩
    rcases hopen.prefix_cases hq hleft with rfl | ⟨q, rfl, -⟩
    · exact reachesEnd_pure []
    · simp only [declaration, get_bind, opensWith_iff.2 ⟨form, us, q, hopen, rfl⟩, if_true]
      exact Or.inr hmissing

theorem reachesEnd_metavariable {letter : MetaLetter} {tree : Tree}
    (h : Reader.metavariable letter (u ++ rest) = .ok tree rest) (hq : q <+: u)
    (hleft : ¬ EndsWith leftWord q) : ReachesEnd (Reader.metavariable letter q) := by
  obtain ⟨v, w, name, declared, rfl, hname, hdeclared, rfl⟩ := metavariable_parts h
  rcases prefix_append_cases hq with hv | ⟨q, rfl, hw⟩
  · refine (reachesEnd_withSubscript hname hv).bind fun name => ?_
    exact Or.inl ⟨.metavar name [], rfl⟩
  · have hread := withSubscript_truncate hname (hw.trans (List.prefix_append w rest))
    rw [Reader.metavariable, bind_of_eq_ok hread]
    refine (hdeclared.reachesEnd hw (not_endsWith_of_append hleft)).bind fun declared => ?_
    exact reachesEnd_pure _

end Names

/-! ## Terms -/

/-- The reader of a phrase comes to the end of the tokens. -/
def TermPhrase.EndsAt : TermPhrase → List Token → Prop
  | term m, q => ReachesEnd (Reader.term m q)
  | more m left, q => ReachesEnd (infixRest Token.infixFunction? Reader.term m left q)
  | basic, q => ReachesEnd (basicTerm q)
  | arguments kind _ _, q => ReachesEnd (list kind.reader q)

theorem ArgumentKind.endsAt_phrase {kind : ArgumentKind} {q : List Token} :
    kind.phrase.EndsAt q ↔ ReachesEnd (kind.reader q) := by
  cases kind with
  | full => rfl
  | basic => rfl

section Terms

variable {u rest q : List Token} {tree : Tree}

theorem reachesEnd_infixRest {operator? : Token → Option InfixOperator}
    {operand : Threshold → Reader Tree} {m : Threshold} (left : Tree) :
    ReachesEnd (infixRest operator? operand m left []) :=
  Or.inl ⟨left, infixRest_of_none rfl left⟩

/-- A phrase that is whole is read to the end. -/
theorem TermDerivation.endsAt_whole {p : TermPhrase} (h : TermDerivation p u tree rest)
    (hplain : ∀ t ∈ u, t.Plain) : p.EndsAt u := by
  have hreads := (h.truncate (List.nil_prefix (l := rest))).reads hplain
  rw [List.append_nil] at hreads
  cases p with
  | term m => exact Or.inl ⟨tree, hreads⟩
  | more m left => exact Or.inl ⟨tree, hreads⟩
  | basic => exact Or.inl ⟨tree, hreads⟩
  | arguments kind label done =>
    obtain ⟨args, hargs, -⟩ := hreads
    exact Or.inl ⟨args, hargs⟩

/-- On the first tokens of a part of a term its reader comes to the end. -/
theorem TermDerivation.endsAt {p : TermPhrase} (h : TermDerivation p u tree rest)
    (hplain : ∀ t ∈ u, t.Plain) (hq : q <+: u) (hleft : ¬ EndsWith leftWord q) : p.EndsAt q := by
  induction h generalizing q with
  | @term m u v rest first tree hfirst hmore ihfirst ihmore =>
    rw [List.forall_mem_append] at hplain
    show ReachesEnd (Reader.term m q)
    rw [term_eq]
    rcases prefix_append_cases hq with hu | ⟨q', rfl, hv⟩
    · exact ReachesEnd.bind (ihfirst hplain.1 hu hleft) reachesEnd_infixRest
    · have hread : basicTerm (u ++ q') = .ok first q' :=
        (hfirst.truncate (hv.trans (List.prefix_append v rest))).reads hplain.1
      rw [bind_of_eq_ok hread]
      exact ihmore hplain.2 hv (not_endsWith_of_append hleft)
  | stop _ =>
    obtain rfl := List.prefix_nil.1 hq
    exact reachesEnd_infixRest _
  | @step m t op u v rest left right tree hop hadmits hright hmore ihright ihmore =>
    rw [List.forall_mem_cons, List.forall_mem_append] at hplain
    rcases List.prefix_cons_iff.1 hq with rfl | ⟨q', rfl, hq'⟩
    · exact reachesEnd_infixRest left
    show ReachesEnd (infixRest Token.infixFunction? Reader.term m left (t :: q'))
    rw [infixRest_of_some forward_term (continuing?_of_admits hop hadmits q')]
    have hleft' := not_endsWith_of_cons hleft
    rcases prefix_append_cases hq' with hu | ⟨q'', rfl, hv⟩
    · exact ReachesEnd.bind (ihright hplain.2.1 hu hleft') fun right => reachesEnd_infixRest _
    · have hread : Reader.term (.power op.rightPower) (u ++ q'') = .ok right q'' :=
        (hright.truncate (hv.trans (List.prefix_append v rest))).reads hplain.2.1
      rw [bind_of_eq_ok hread]
      exact ihmore hplain.2.2 hv (not_endsWith_of_append hleft')
  | @name u rest name hname =>
    cases q with
    | nil => exact Or.inr (missing_fail none)
    | cons x q =>
      -- A letter is no parenthesis, so the first tokens are read as a variable too.
      obtain ⟨s, rfl⟩ := hq
      obtain ⟨c, us, hts, hc⟩ := hname.exists_letter
      obtain ⟨rfl, -⟩ := List.cons.inj hts
      show ReachesEnd (basicTerm (.char c :: q))
      rw [basicTerm_of_letter hc]
      exact (reachesEnd_variableName hname (List.prefix_append _ s)).bind fun v =>
        reachesEnd_pure (Tree.atom v)
  | @parens form us u vs rest tree hopen hclose hinside ih =>
    by_cases hne : q = us ++ (u ++ vs)
    · exact hne ▸ (TermDerivation.parens hopen hclose hinside).endsAt_whole hplain
    · rw [List.forall_mem_append, List.forall_mem_append] at hplain
      have hmissing : Missing (parenthesised (Reader.term Level.whole) q) := by
        refine missing_parenthesised hopen hclose (fun q hq hleft => ih hplain.2.1 hq hleft) ?_ hq
          hne hleft
        intro rest' hrest'
        exact ⟨tree, (hinside.truncate (hrest'.trans (List.prefix_append vs rest))).reads hplain.2.1⟩
      rcases hopen.prefix_cases hq hleft with rfl | ⟨q', rfl, -⟩
      · exact Or.inr (missing_fail none)
      · show ReachesEnd (basicTerm (us ++ q'))
        rw [basicTerm_of_opening hopen hplain.1]
        exact Or.inr hmissing
  | @application lexeme label arity positive note form us u vs rest args hopen hclose hargs harity
      ih =>
    rcases List.prefix_cons_iff.1 hq with rfl | ⟨q', rfl, hq'⟩
    · exact Or.inr (missing_fail none)
    by_cases hne : q' = us ++ (u ++ vs)
    · rw [hne]
      exact (TermDerivation.application hopen hclose hargs harity).endsAt_whole hplain
    · rw [List.forall_mem_cons, List.forall_mem_append, List.forall_mem_append] at hplain
      have hmissing : Missing (parenthesised (list basicTerm) q') := by
        refine missing_parenthesised hopen hclose (fun q hq hleft => ih hplain.2.2.1 hq hleft) ?_ hq'
          hne (not_endsWith_of_cons hleft)
        intro rest' hrest'
        obtain ⟨args', hread, -⟩ :=
          (hargs.truncate (hrest'.trans (List.prefix_append vs rest))).reads hplain.2.2.1
        exact ⟨args', hread⟩
      show ReachesEnd (basicTerm (_ :: q'))
      rw [basicTerm_of_function]
      exact Or.inr (hmissing.bind _)
  | last _ _ ih => exact ReachesEnd.list (ArgumentKind.endsAt_phrase.1 (ih hplain hq hleft))
  | @comma kind label done t u v rest arg tree harg ht hmore ih ihmore =>
    rw [List.forall_mem_append, List.forall_mem_cons] at hplain
    rcases prefix_append_cons_cases hq with hu | ⟨q', rfl, hv⟩
    · exact ReachesEnd.list (ArgumentKind.endsAt_phrase.1 (ih hplain.1 hu hleft))
    · have hpre : t :: q' <+: t :: (v ++ rest) :=
        List.cons_prefix_cons.2 ⟨rfl, hv.trans (List.prefix_append v rest)⟩
      have hread := ArgumentKind.reads_phrase.1 ((harg.truncate hpre).reads hplain.1)
      have hleft' := not_endsWith_of_cons (not_endsWith_of_append hleft)
      exact ReachesEnd.list_of_comma kind.forward_reader hread ht (ihmore hplain.2.2 hv hleft')

end Terms

end LatexLogic
