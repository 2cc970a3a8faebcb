import LatexLogic.Proofs.Grammar.Choice
import LatexLogic.Proofs.Grammar.Regroup

/-!
# The second attempt at a parenthesis

At an opening parenthesis a formula is tried, and if it fails a term is read from the same place. If
the group was meant as a formula the second attempt fails as well, and its failure is the one that
is reported. It is always the same: the tokens of formulas that no term has are logical, the reader
of terms gets as far as the first of them (`FormulaDerivation.stopsTerm`), and that token is blamed
(`infixPredicate_of_stopsTerm`), whether or not anything was wrong with it.
-/

set_option autoImplicit false

namespace LatexLogic

open Reader

/-! ## Two attempts -/

section Attempts

variable {form : Form} {us inside rest : List Token} {failure : Failure} (hopen : Opening form us)
  (hplain : ∀ t ∈ us, t.Plain)
  (hattempt : parenthesised (Reader.formula Level.whole) (us ++ inside) = .error failure rest)
  (hleaves : Level.leavesTerm failure = true)

include hopen hplain

/-- An operand at a parenthesis is a basic formula. -/
theorem operand_of_opening : Reader.operand (us ++ inside) = basicFormula (us ++ inside) := by
  obtain ⟨t, us', rfl, hbare⟩ := hopen.exists_bare hplain
  exact operand_of_not_logical hbare.isLogical

include hattempt hleaves

/-- If the first attempt fails, and not for good, the outcome is that of the second. -/
theorem basicFormula_of_attempt : basicFormula (us ++ inside) = infixPredicate (us ++ inside) := by
  have hopens := opensWith_iff.2 ⟨form, us, inside, hopen, rfl⟩
  obtain ⟨t, us', rfl, hbare⟩ := hopen.exists_bare hplain
  rw [List.cons_append] at hattempt hopens ⊢
  rw [basicFormula_of_not_logical hbare.isLogical, if_pos hopens, Level.formulaElseTerm, hattempt]
  simp only [hleaves, if_true]

end Attempts

/-! ## Logical tokens -/

section Logical

variable {t : Token}

theorem Token.written_ne_of_isLogical (hlogical : t.isLogical = true) (hplain : t.Plain)
    {delimiter : String} (hmem : delimiter ∈ delimiters) : t.written ≠ delimiter := by
  rintro rfl
  rw [(hplain.isBare hmem).isLogical] at hlogical
  cases hlogical

/-- A term that starts with a logical token fails at that token. -/
theorem basicTerm_of_logical (hlogical : t.isLogical = true) (hplain : t.Plain)
    (ts : List Token) :
    basicTerm (t :: ts) = .error (.fault (.badToken t.written none)) ts := by
  have hopen : t.written ≠ "(" := t.written_ne_of_isLogical hlogical hplain (by simp [delimiters])
  have hleft : t.written ≠ leftWord :=
    t.written_ne_of_isLogical hlogical hplain (by simp [delimiters])
  have hclosed : opensWith "(" (t :: ts) = false := by simp [opensWith, hopen, hleft]
  have hread : basicTerm (t :: ts) = (variableName >>= fun v => pure (.atom v)) (t :: ts) := by
    rcases t with ⟨lexeme, ⟨_, _⟩ | _ | ⟨_, _⟩ | ⟨_, _⟩⟩ | _ | _ | _
    case known.function => cases hlogical
    case char => cases hlogical
    case unrecognized => cases hlogical
    all_goals
      simp only [basicTerm_eq, Level.basicTermAbove, peek?_bind, List.head?_cons, get_bind, hclosed,
        Bool.false_eq_true, if_false]
  have hname : variableName (t :: ts) = .error (.fault (.badToken t.written none)) ts := by
    have hletter : variableLetter? t = none := by
      cases t with
      | char c => cases hlogical
      | known _ _ => rfl
      | metavariable _ => rfl
      | unrecognized _ => rfl
    rw [variableName, bind_of_eq_ok (next_eq_ok_iff.2 rfl), hletter]
    rfl
  rw [hread, bind_of_eq_error hname]

end Logical

/-! ## Where a term stops -/

/-- Whatever follows, the reader of terms gets through the first tokens and stops at the given one:
its term ends there, or the token is at fault. -/
def StopsTerm (w : List Token) (t : Token) : Prop :=
  ∀ r, (∃ tree, Reader.term Level.whole (w ++ t :: r) = .ok tree (t :: r)) ∨
    ∃ expected rest, Reader.term Level.whole (w ++ t :: r) =
      .error (.fault (.badToken t.written expected)) rest

section StopsTerm

variable {w : List Token} {t : Token}

theorem stopsTerm_nil (hlogical : t.isLogical = true) (hplain : t.Plain) : StopsTerm [] t := by
  intro r
  right
  exact ⟨none, r, by
    rw [List.nil_append, term_eq, bind_of_eq_error (basicTerm_of_logical hlogical hplain r)]⟩

/-- A token that closes nothing is at fault where a parenthesis should be closed. -/
theorem Reader.Form.close_eq_error (form : Form) (hclose : t.written ≠ ")")
    (hright : t.written ≠ rightWord) (r : List Token) : ∃ expected rest,
      form.close (t :: r) = .error (.fault (.badToken t.written expected)) rest := by
  cases form with
  | short => exact ⟨some ")", r, by simp [Form.close, expect, hclose]⟩
  | long => exact ⟨some rightWord, r, by simp [Form.close, expect, hright]⟩

/-- What stands between parentheses is read up to the token that is not the closing one. -/
theorem parenthesised_of_stopsTerm {form : Form} {us : List Token} (hopen : Opening form us)
    (h : StopsTerm w t) (hclose : t.written ≠ ")") (hright : t.written ≠ rightWord)
    (r : List Token) : ∃ expected rest,
      parenthesised (Reader.term Level.whole) (us ++ (w ++ t :: r)) =
        .error (.fault (.badToken t.written expected)) rest := by
  rw [parenthesised_of_opening hopen]
  rcases h r with ⟨tree, hread⟩ | ⟨expected, rest, hread⟩
  · obtain ⟨expected, rest, hfails⟩ := form.close_eq_error hclose hright r
    exact ⟨expected, rest, by rw [bind_of_eq_ok hread, bind_of_eq_error hfails]⟩
  · exact ⟨expected, rest, by rw [bind_of_eq_error hread]⟩

variable {form : Form} {us : List Token} (hopen : Opening form us) (hus : ∀ x ∈ us, x.Plain)
  (hlogical : t.isLogical = true) (hplain : t.Plain)

include hopen hus hlogical hplain

/-- In parentheses the token is at fault. -/
theorem term_parens_of_stopsTerm (h : StopsTerm w t) (m : Threshold) (r : List Token) :
    ∃ expected rest, Reader.term m (us ++ (w ++ t :: r)) =
      .error (.fault (.badToken t.written expected)) rest := by
  obtain ⟨expected, rest, hread⟩ := parenthesised_of_stopsTerm hopen h
    (t.written_ne_of_isLogical hlogical hplain (by simp [delimiters]))
    (t.written_ne_of_isLogical hlogical hplain (by simp [delimiters])) r
  exact ⟨expected, rest, by
    rw [term_eq, bind_of_eq_error ((basicTerm_of_opening hopen hus _).trans hread)]⟩

/-- The second attempt at a parenthesis blames the token at which terms stop. -/
theorem infixPredicate_of_stopsTerm (h : StopsTerm w t) (r : List Token) :
    ∃ expected rest, infixPredicate (us ++ (w ++ t :: r)) =
      .error (.fault (.badToken t.written expected)) rest := by
  obtain ⟨expected, rest, hread⟩ :=
    term_parens_of_stopsTerm hopen hus hlogical hplain h Level.whole r
  exact ⟨expected, rest, by rw [infixPredicate_eq, bind_of_eq_error hread]⟩

end StopsTerm

/-! ## The first logical token of a formula -/

/-- A token with the tokens before it, none of which is logical while it is. -/
structure FirstLogical (ts w : List Token) (t : Token) (r : List Token) : Prop where
  eq_append : ts = w ++ t :: r
  before : ∀ x ∈ w, x.isLogical = false
  logical : t.isLogical = true

namespace FirstLogical

variable {ts us w r w' r' : List Token} {t t' : Token}

theorem exists_of_mem (h : ∃ t ∈ ts, t.isLogical = true) : ∃ w t r, FirstLogical ts w t r := by
  induction ts with
  | nil => exact absurd h (by simp)
  | cons x ts ih =>
    cases hx : x.isLogical with
    | true => exact ⟨[], x, ts, rfl, by simp, hx⟩
    | false =>
      have hmem : ∃ t ∈ ts, t.isLogical = true := by simpa [hx] using h
      obtain ⟨w, t, r, rfl, hw, ht⟩ := ih hmem
      exact ⟨x :: w, t, r, rfl, List.forall_mem_cons.2 ⟨hx, hw⟩, ht⟩

theorem mem (h : FirstLogical ts w t r) : t ∈ ts := by
  rw [h.eq_append]
  simp

theorem cons_inv {x : Token} (hx : x.isLogical = true) (h : FirstLogical (x :: ts) w t r) :
    w = [] ∧ t = x ∧ r = ts := by
  obtain ⟨heq, hw, -⟩ := h
  cases w with
  | nil =>
    obtain ⟨rfl, rfl⟩ := List.cons.inj heq
    exact ⟨rfl, rfl, rfl⟩
  | cons y w =>
    obtain ⟨rfl, -⟩ := List.cons.inj heq
    rw [hw x List.mem_cons_self] at hx
    cases hx

/-- Behind tokens that are not logical the first logical token stays the first. -/
theorem of_append (hus : ∀ x ∈ us, x.isLogical = false) (h : FirstLogical (us ++ ts) w t r) :
    ∃ w', w = us ++ w' ∧ FirstLogical ts w' t r := by
  obtain ⟨heq, hw, ht⟩ := h
  rcases exists_of_append_eq heq with ⟨mid, rfl, -⟩ | ⟨w', rfl, rfl⟩
  · rw [hus t (by simp)] at ht
    cases ht
  · exact ⟨w', rfl, rfl, (List.forall_mem_append.1 hw).2, ht⟩

/-- The first logical token of two lists is the one of the first list, if that has any. -/
theorem of_append_left (hts : ∃ x ∈ ts, x.isLogical = true)
    (h : FirstLogical (ts ++ us) w t r) : ∃ s, r = s ++ us ∧ FirstLogical ts w t s := by
  obtain ⟨heq, hw, ht⟩ := h
  rcases exists_of_append_eq heq with ⟨s, rfl, rfl⟩ | ⟨w', rfl, -⟩
  · exact ⟨s, rfl, rfl, hw, ht⟩
  · obtain ⟨x, hx, hlogical⟩ := hts
    rw [hw x (List.mem_append_left _ hx)] at hlogical
    cases hlogical

end FirstLogical

/-- The reader of terms gets as far as the first logical token of a formula. -/
theorem FormulaDerivation.stopsTerm {p : FormulaPhrase} {u w s rest : List Token} {t : Token}
    {tree : Tree} (h : FormulaDerivation p u tree rest) (hplain : ∀ x ∈ u, x.Plain)
    (hfirst : FirstLogical u w t s) : StopsTerm w t := by
  have hhead : ∀ {x : Token} {u w s : List Token}, x.isLogical = true → x.Plain →
      FirstLogical (x :: u) w t s → StopsTerm w t := by
    intro x u w s hx hplain hfirst
    obtain ⟨rfl, rfl, -⟩ := hfirst.cons_inv hx
    exact stopsTerm_nil hx hplain
  induction h generalizing w s with
  | @formula m u v rest first tree hoperand _ ihfirst _ =>
    rw [List.forall_mem_append] at hplain
    obtain ⟨s, -, hfirst⟩ := hfirst.of_append_left (hoperand.exists_logical nofun)
    exact ihfirst hplain.1 hfirst
  | stop _ => exact absurd hfirst.mem List.not_mem_nil
  | step hop _ _ _ _ _ =>
    obtain ⟨lexeme, precedence, side, rfl⟩ := Token.infixConnective?_eq_some hop
    exact hhead rfl (hplain _ List.mem_cons_self) hfirst
  | before _ _ => exact hhead rfl (hplain _ List.mem_cons_self) hfirst
  | quantified _ _ _ _ => exact hhead rfl (hplain _ List.mem_cons_self) hfirst
  | basicOperand _ ih => exact ih hplain hfirst
  | metavariable _ => exact hhead rfl (hplain _ List.mem_cons_self) hfirst
  | constant => exact hhead rfl (hplain _ List.mem_cons_self) hfirst
  | predicate _ _ _ _ => exact hhead rfl (hplain _ List.mem_cons_self) hfirst
  | @parens form us u vs rest tree hopen hclose hinside ih =>
    rw [List.forall_mem_append, List.forall_mem_append] at hplain
    have hus := not_logical_of_delimiters hplain.1 hopen.mem_delimiters
    obtain ⟨w', rfl, hgroup⟩ := hfirst.of_append hus
    obtain ⟨s', -, hinner⟩ := hgroup.of_append_left (hinside.exists_logical nofun)
    -- Inside the parentheses a term stops at the token, and so the closing one is not found.
    have hstops := ih hplain.2.1 hinner
    intro r
    right
    rw [List.append_assoc]
    exact term_parens_of_stopsTerm hopen hplain.1 hinner.logical (hplain.2.1 t hinner.mem) hstops
      Level.whole r
  | @comparison lexeme label u v rest left right hleft hright =>
    rw [List.forall_mem_append, List.forall_mem_cons] at hplain
    obtain ⟨w', rfl, hpredicate⟩ := hfirst.of_append (hleft.not_logical hplain.1)
    obtain ⟨rfl, rfl, rfl⟩ := hpredicate.cons_inv rfl
    intro r
    left
    have hchanged : TermDerivation (.term Level.whole) u left
        (.known lexeme (.predicate label .infixOp) :: r) := hleft.change_rest hplain.1 .cons
    rw [List.append_nil]
    exact ⟨left, hchanged.reads hplain.1⟩

end LatexLogic
