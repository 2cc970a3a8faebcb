import LatexLogic.Proofs.Grammar.TermReading

/-!
# Where reading fails

A reader fails at a certain token (`FaultAt`): the token does not fit, or it is missing; or it is a
quantifier in front of an eigenvariable; or it is a prefix operator in front of arguments that can
be read but are not as many as it takes. No list of tokens is too deep for the readers without a
limit.

The tokens before that one are taken bit by bit: opening parentheses, commas, known tokens, and
phrases that are read whole. A property that holds of all these and is kept by appending is a
`Passage`, and the tokens before a fault have it (`failsAfter_formula`). If delimiters keep their
meaning the passage is that no parenthesis is closed that was not opened (`failsAfter_unclosed`), so
that the failure lies inside every group in which reading started.
-/

set_option autoImplicit false

namespace LatexLogic

open Reader

/-! ## Faults of tokens -/

/-- Every failure of the reader is about a token that does not fit or is missing. -/
def Reader.FaultsAtTokens {α : Type} (r : Reader α) : Prop :=
  ∀ ts failure rest, r ts = .error failure rest → IsTokenFault failure

section FaultsAtTokens

variable {α β : Type}

theorem faultsAtTokens_pure (a : α) : (pure a : Reader α).FaultsAtTokens :=
  fun _ _ _ h => absurd h pure_ne_error

theorem faultsAtTokens_badToken (actual : String) (expected : Option String) :
    (fail (.badToken actual expected) : Reader α).FaultsAtTokens := by
  intro ts failure rest h
  rw [← (fail_eq_error_iff.1 h).1]
  trivial

theorem faultsAtTokens_unexpectedEnd (expected : Option String) :
    (fail (.unexpectedEnd expected) : Reader α).FaultsAtTokens := by
  intro ts failure rest h
  rw [← (fail_eq_error_iff.1 h).1]
  trivial

theorem Reader.FaultsAtTokens.bind {x : Reader α} {f : α → Reader β} (hx : x.FaultsAtTokens)
    (hf : ∀ a, (f a).FaultsAtTokens) : (x >>= f).FaultsAtTokens := by
  intro ts failure rest h
  rcases bind_eq_error_iff.1 h with h | ⟨a, mid, -, h⟩
  · exact hx ts failure rest h
  · exact hf a mid failure rest h

theorem faultsAtTokens_get : (get : Reader (List Token)).FaultsAtTokens := nofun

theorem faultsAtTokens_peek? : peek?.FaultsAtTokens := nofun

theorem faultsAtTokens_next? : next?.FaultsAtTokens := by
  intro ts failure rest h
  cases ts with
  | nil => cases h
  | cons t ts => cases h

theorem faultsAtTokens_next : next.FaultsAtTokens := by
  refine faultsAtTokens_next?.bind fun o => ?_
  cases o with
  | none => exact faultsAtTokens_unexpectedEnd _
  | some t => exact faultsAtTokens_pure t

theorem faultsAtTokens_expect (written : String) : (expect written).FaultsAtTokens :=
  fun _ _ _ => isTokenFault_of_expect

theorem Reader.FaultsAtTokens.parenthesised {inner : Reader α} (h : inner.FaultsAtTokens) :
    (parenthesised inner).FaultsAtTokens := by
  intro ts failure rest hread
  rcases parenthesised_eq_error hread with hfault | ⟨form, us, inside, -, -, hinner⟩
  · exact hfault
  · exact h inside failure rest hinner

theorem Reader.FaultsAtTokens.list {item : Reader α} (hforward : item.Forward)
    (h : item.FaultsAtTokens) : (list item).FaultsAtTokens := by
  intro ts failure rest hread
  exact list_fails hforward (n := ts.length) (E := fun _ => IsTokenFault failure)
    (fun _ hitem => h _ failure rest hitem) (fun _ _ _ hlater => hlater) le_rfl hread

theorem faultsAtTokens_integer : integer.FaultsAtTokens := by
  intro ts failure rest h
  unfold integer at h
  split at h
  · cases h
    trivial
  · cases h
    trivial
  · cases h

theorem faultsAtTokens_subscript : subscript.FaultsAtTokens := by
  refine (faultsAtTokens_expect _).bind fun _ => faultsAtTokens_peek?.bind fun o => ?_
  cases o with
  | none => exact faultsAtTokens_unexpectedEnd _
  | some t =>
    dsimp only
    cases digitOf? t with
    | some d => exact faultsAtTokens_next?.bind fun _ => faultsAtTokens_pure _
    | none =>
      exact (faultsAtTokens_expect _).bind fun _ => faultsAtTokens_integer.bind fun _ =>
        (faultsAtTokens_expect _).bind fun _ => faultsAtTokens_pure _

theorem faultsAtTokens_withSubscript (name : String) : (withSubscript name).FaultsAtTokens := by
  refine faultsAtTokens_get.bind fun ts => ?_
  split
  · exact faultsAtTokens_subscript.bind fun _ => faultsAtTokens_pure _
  · exact faultsAtTokens_pure _

theorem faultsAtTokens_variableName : variableName.FaultsAtTokens := by
  refine faultsAtTokens_next.bind fun t => ?_
  cases variableLetter? t with
  | some c => exact faultsAtTokens_withSubscript _
  | none => exact faultsAtTokens_badToken _ _

theorem faultsAtTokens_metavariable (letter : MetaLetter) :
    (Reader.metavariable letter).FaultsAtTokens := by
  refine (faultsAtTokens_withSubscript _).bind fun _ => FaultsAtTokens.bind ?_ fun _ =>
    faultsAtTokens_pure _
  refine faultsAtTokens_get.bind fun ts => ?_
  split
  · exact (faultsAtTokens_variableName.list forward_variableName).parenthesised
  · exact faultsAtTokens_pure _

end FaultsAtTokens

/-! ## Places of faults -/

/-- The failure is the fault of the first of the tokens. -/
inductive FaultAt : Failure → List Token → Prop where
  | token {failure : Failure} {ts : List Token} : IsTokenFault failure → FaultAt failure ts
  | eigenvariable {lexeme : Lexeme} {label bound : String} {ts rest : List Token} :
      variableName ts = .ok bound rest → isEigenvariable bound = true →
      FaultAt (.fault (.boundEigenvariable bound)) (.known lexeme (.quantifier label) :: ts)
  | function {lexeme : Lexeme} {label : String} {arity : Nat} {positive : 0 < arity}
      {note : Option Int} {ts rest : List Token} {args : List Tree} {error : FormulaError} :
      parenthesised (list basicTerm) ts = .ok args rest →
      Tree.applied lexeme.written label arity args = .error error →
      FaultAt (.fault error) (.known lexeme (.function label (.prefixOp arity positive note)) :: ts)
  | predicate {lexeme : Lexeme} {label : String} {arity : Nat} {positive : 0 < arity}
      {ts rest : List Token} {args : List Tree} {error : FormulaError} :
      parenthesised (list (Reader.term Level.whole)) ts = .ok args rest →
      Tree.applied lexeme.written label arity args = .error error →
      FaultAt (.fault error) (.known lexeme (.predicate label (.prefixOp arity positive)) :: ts)

theorem FaultAt.ne_tooDeep {failure : Failure} {ts : List Token} (h : FaultAt failure ts) :
    failure ≠ .tooDeep := by
  rintro rfl
  cases h with
  | token hfault => exact hfault

/-- The failure is the fault of one of the tokens, and those before it have a property. -/
def FailsAfter (P : List Token → Prop) (failure : Failure) (ts : List Token) : Prop :=
  ∃ pre post, ts = pre ++ post ∧ P pre ∧ FaultAt failure post

/-- A property of everything that readers take, bit by bit, out of tokens of a certain sort. -/
structure Passage (sort : Token → Prop) (P : List Token → Prop) : Prop where
  nil : P []
  append : ∀ {u v}, P u → P v → P (u ++ v)
  opening : ∀ {form us}, Opening form us → P us
  comma : ∀ {t : Token}, t.written = "," → P [t]
  known : ∀ {lexeme c}, sort (.known lexeme c) → P [.known lexeme c]
  name : ∀ {u}, (∀ t ∈ u, t.NamePart) → P u
  term : ∀ {p u tree rest}, TermDerivation p u tree rest → (∀ t ∈ u, sort t) → P u
  formula : ∀ {p u tree rest}, FormulaDerivation p u tree rest → (∀ t ∈ u, sort t) → P u

/-- What readers take, if delimiters keep their meaning, closes no parenthesis that it has not
opened. -/
theorem passage_unclosed : Passage Token.Plain Unclosed where
  nil := balanced_nil.unclosed
  append := Unclosed.append
  opening := unclosed_opening
  comma ht := (balanced_nil.cons (by rw [ht]; decide) (by rw [ht]; decide)).unclosed
  known hplain := (balanced_nil.cons_known hplain).unclosed
  name hu := (balanced_of_nameParts hu).unclosed
  term hu hplain := (hu.balanced hplain).unclosed
  formula hu hplain := (hu.balanced hplain).unclosed

section Passage

variable {sort : Token → Prop} {P : List Token → Prop} (passage : Passage sort P)
  {failure : Failure} {u ts rest : List Token}

include passage

namespace Passage

theorem here (h : FaultAt failure ts) : FailsAfter P failure ts :=
  ⟨[], ts, rfl, passage.nil, h⟩

theorem token (h : IsTokenFault failure) (ts : List Token) : FailsAfter P failure ts :=
  passage.here (.token h)

theorem after (hu : P u) (h : FailsAfter P failure ts) : FailsAfter P failure (u ++ ts) := by
  obtain ⟨pre, post, rfl, hpre, hpost⟩ := h
  exact ⟨u ++ pre, post, by rw [List.append_assoc], passage.append hu hpre, hpost⟩

theorem after_known {lexeme : Lexeme} {c : Construct} (hsort : sort (.known lexeme c))
    (h : FailsAfter P failure ts) : FailsAfter P failure (.known lexeme c :: ts) :=
  passage.after (passage.known hsort) h

/-- An argument that is read is passed. -/
theorem exists_argument (kind : ArgumentKind) {tree : Tree}
    (hread : kind.reader ts = .ok tree rest) (hsort : ∀ t ∈ ts, sort t) :
    ∃ u, ts = u ++ rest ∧ P u := by
  obtain ⟨u, rfl, hu⟩ := TermDerivation.of_reader hread
  exact ⟨u, rfl, passage.term hu fun t ht => hsort t (List.mem_append_left _ ht)⟩

end Passage

/-! ## Terms -/

/-- A list of arguments fails where one of the arguments does. -/
theorem failsAfter_list (kind : ArgumentKind) {n : Nat}
    (ih : ∀ us : List Token, us.length ≤ n → (∀ t ∈ us, sort t) →
      kind.reader us = .error failure rest → FailsAfter P failure us)
    (hts : ts.length ≤ n) (hsort : ∀ t ∈ ts, sort t)
    (hread : list kind.reader ts = .error failure rest) : FailsAfter P failure ts := by
  refine list_fails kind.forward_reader (n := n)
    (E := fun us => (∀ t ∈ us, sort t) → FailsAfter P failure us) ?here ?later hts hread hsort
  case here =>
    intro us hus hitem hsort
    exact ih us hus hsort hitem
  case later =>
    intro us arg t vs hus hitem ht hvs hsort
    obtain ⟨u, rfl, hu⟩ := passage.exists_argument kind hitem hsort
    rw [List.forall_mem_append, List.forall_mem_cons] at hsort
    exact passage.after hu (passage.after (passage.comma ht) (hvs hsort.2.2))

/-- A text in parentheses fails at a parenthesis or inside. -/
theorem failsAfter_parenthesised {α : Type} {inner : Reader α}
    (ih : ∀ us : List Token, us.length < ts.length → (∀ t ∈ us, sort t) →
      inner us = .error failure rest → FailsAfter P failure us)
    (hsort : ∀ t ∈ ts, sort t) (hread : parenthesised inner ts = .error failure rest) :
    FailsAfter P failure ts := by
  rcases parenthesised_eq_error hread with hfault | ⟨form, us, inside, hopen, rfl, hinner⟩
  · exact passage.token hfault ts
  · have hpos := List.length_pos_iff.2 hopen.ne_nil
    apply passage.after (passage.opening hopen)
    apply ih inside ?_ (List.forall_mem_append.1 hsort).2 hinner
    rw [List.length_append]
    omega

/-- An application fails where its arguments do, or its operator is at fault. -/
theorem failsAfter_application (kind : ArgumentKind) {n : Nat}
    (ih : ∀ us : List Token, us.length ≤ n → (∀ t ∈ us, sort t) →
      kind.reader us = .error failure rest → FailsAfter P failure us)
    {symbol label : String} {arity : Nat} (hts : ts.length ≤ n) (hsort : ∀ t ∈ ts, sort t)
    (hread : Level.application symbol label arity kind.reader ts = .error failure rest) :
    FailsAfter P failure ts ∨ ∃ args error, parenthesised (list kind.reader) ts = .ok args rest ∧
      Tree.applied symbol label arity args = .error error ∧ failure = .fault error := by
  simp only [Level.application, bind_eq_error_iff] at hread
  rcases hread with hread | ⟨args, mid, hargs, hread⟩
  · left
    apply failsAfter_parenthesised passage ?_ hsort hread
    intro us hus hsort hlist
    exact failsAfter_list passage kind ih (hus.le.trans hts) hsort hlist
  · right
    cases happly : Tree.applied symbol label arity args with
    | ok tree =>
      rw [happly] at hread
      exact absurd hread pure_ne_error
    | error error =>
      rw [happly] at hread
      obtain ⟨rfl, rfl⟩ := fail_eq_error_iff.1 hread
      exact ⟨args, error, hargs, happly, rfl⟩

/-- A run of operators fails where one of its right arguments does. The arguments that were read
before are passed, and so is every operator. -/
theorem failsAfter_infixRest {operator? : Token → Option InfixOperator}
    {operand : Threshold → Reader Tree} {m : Threshold} {first : Tree} {n : Nat}
    (hforward : ∀ m, (operand m).Forward)
    (hknown : ∀ t op, operator? t = some op → ∃ lexeme c, t = .known lexeme c)
    (hpassed : ∀ m (us rest : List Token) tree, operand m us = .ok tree rest →
      (∀ t ∈ us, sort t) → ∃ u, us = u ++ rest ∧ P u)
    (ih : ∀ us : List Token, us.length < n → (∀ t ∈ us, sort t) → ∀ m,
      operand m us = .error failure rest → FailsAfter P failure us)
    (hts : ts.length ≤ n) (hsort : ∀ t ∈ ts, sort t)
    (hread : infixRest operator? operand m first ts = .error failure rest) :
    FailsAfter P failure ts := by
  refine infixRest_fails hforward (n := n)
    (E := fun us => (∀ t ∈ us, sort t) → FailsAfter P failure us) ?here ?later hts hread hsort
  case here =>
    intro t us op hus hop hright hsort
    rw [continuing?_cons, Option.filter_eq_some_iff] at hop
    obtain ⟨lexeme, c, rfl⟩ := hknown t op hop.1
    rw [List.forall_mem_cons] at hsort
    exact passage.after_known hsort.1 (ih us hus hsort.2 _ hright)
  case later =>
    intro t us op right mid hus hop hright hmid hsort
    rw [continuing?_cons, Option.filter_eq_some_iff] at hop
    obtain ⟨lexeme, c, rfl⟩ := hknown t op hop.1
    rw [List.forall_mem_cons] at hsort
    obtain ⟨v, rfl, hv⟩ := hpassed _ us mid right hright hsort.2
    rw [List.forall_mem_append] at hsort
    exact passage.after_known hsort.1 (passage.after hv (hmid hsort.2.2))

/-- A basic term fails at some token if shorter terms do. -/
theorem failsAfter_basicTerm_of_shorter
    (ih : ∀ us : List Token, us.length < ts.length → (∀ t ∈ us, sort t) →
      (basicTerm us = .error failure rest → FailsAfter P failure us) ∧
        ∀ m, Reader.term m us = .error failure rest → FailsAfter P failure us)
    (hsort : ∀ t ∈ ts, sort t) (hread : basicTerm ts = .error failure rest) :
    FailsAfter P failure ts := by
  rw [basicTerm_eq] at hread
  cases ts with
  | nil => exact passage.token (faultsAtTokens_unexpectedEnd _ _ _ _ hread) []
  | cons t us =>
    have hsort' := List.forall_mem_cons.1 hsort
    simp only [Level.basicTermAbove, peek?_bind, List.head?_cons] at hread
    split at hread
    · simp only [next?_bind_cons] at hread
      have hshorter : ∀ vs : List Token, vs.length ≤ us.length → (∀ t ∈ vs, sort t) →
          basicTerm vs = .error failure rest → FailsAfter P failure vs :=
        fun vs hvs hsort => (ih vs (Nat.lt_succ_of_le hvs) hsort).1
      -- Either an argument fails, or the function itself is at fault for their number.
      rcases failsAfter_application passage .basic hshorter le_rfl hsort'.2 hread with
        hfails | ⟨args, error, hargs, happly, rfl⟩
      · exact passage.after_known hsort'.1 hfails
      · exact passage.here (.function hargs happly)
    · simp only [get_bind] at hread
      split at hread
      · exact failsAfter_parenthesised passage
          (fun vs hvs hsort => (ih vs hvs hsort).2 Level.whole) hsort hread
      · rcases bind_eq_error_iff.1 hread with hread | ⟨_, _, -, hread⟩
        · exact passage.token (faultsAtTokens_variableName _ _ _ hread) _
        · exact absurd hread pure_ne_error

/-- Basic terms and terms fail at some token. The induction is on the number of tokens. -/
theorem failsAfter_basicTerm_and_term (hsort : ∀ t ∈ ts, sort t) :
    (basicTerm ts = .error failure rest → FailsAfter P failure ts) ∧
      ∀ m, Reader.term m ts = .error failure rest → FailsAfter P failure ts := by
  induction hlength : ts.length using Nat.strong_induction_on generalizing ts with
  | _ n ihn =>
    subst hlength
    have ih : ∀ us : List Token, us.length < ts.length → (∀ t ∈ us, sort t) →
        (basicTerm us = .error failure rest → FailsAfter P failure us) ∧
          ∀ m, Reader.term m us = .error failure rest → FailsAfter P failure us :=
      fun us hus hsort => ihn us.length hus hsort rfl
    refine ⟨failsAfter_basicTerm_of_shorter passage ih hsort, fun m hread => ?_⟩
    rw [term_eq, bind_eq_error_iff] at hread
    rcases hread with hread | ⟨first, mid, hfirst, hrun⟩
    · exact failsAfter_basicTerm_of_shorter passage ih hsort hread
    · have hle := (forward_basicTerm.ok hfirst).length_le
      obtain ⟨u, hts, hu⟩ := passage.exists_argument .basic hfirst hsort
      rw [hts, List.forall_mem_append] at hsort
      rw [hts]
      apply passage.after hu
      refine failsAfter_infixRest passage forward_term ?_ ?_ ?_ hle hsort.2 hrun
      · intro t op hop
        obtain ⟨lexeme, precedence, rfl, -⟩ := Token.infixFunction?_eq_some hop
        exact ⟨lexeme, _, rfl⟩
      · intro m us rest tree hread hsort
        obtain ⟨u, rfl, hu⟩ := TermDerivation.of_term hread
        exact ⟨u, rfl, passage.term hu (List.forall_mem_append.1 hsort).1⟩
      · intro us hus hsort
        exact (ih us hus hsort).2

theorem failsAfter_term {m : Threshold} (hsort : ∀ t ∈ ts, sort t)
    (h : Reader.term m ts = .error failure rest) : FailsAfter P failure ts :=
  (failsAfter_basicTerm_and_term passage hsort).2 m h

/-! ## Formulas -/

theorem failsAfter_infixPredicate (hsort : ∀ t ∈ ts, sort t)
    (h : infixPredicate ts = .error failure rest) : FailsAfter P failure ts := by
  rw [infixPredicate_eq] at h
  rcases bind_eq_error_iff.1 h with hleft | ⟨left, mid, hleft, hmore⟩
  · exact failsAfter_term passage hsort hleft
  · rcases bind_eq_error_iff.1 hmore with hnext | ⟨t, vs, hnext, hpredicate⟩
    · exact passage.token (faultsAtTokens_next _ _ _ hnext) ts
    · obtain rfl := next_eq_ok_iff.1 hnext
      -- The left term is passed, and what stands behind it is a predicate or at fault.
      obtain ⟨u, rfl, hu⟩ := TermDerivation.of_term hleft
      rw [List.forall_mem_append, List.forall_mem_cons] at hsort
      apply passage.after (passage.term hu hsort.1)
      rcases t with ⟨lexeme, ⟨_, _⟩ | _ | ⟨label, _ | _⟩ | ⟨_, _⟩⟩ | _ | _ | _
      case known.predicate.infixOp =>
        rcases bind_eq_error_iff.1 hpredicate with hright | ⟨_, _, -, hpure⟩
        · exact passage.after_known hsort.2.1 (failsAfter_term passage hsort.2.2 hright)
        · exact absurd hpure pure_ne_error
      all_goals exact passage.token (faultsAtTokens_badToken _ _ _ _ _ hpredicate) _

section Shorter

variable (ih : ∀ us : List Token, us.length < ts.length → (∀ t ∈ us, sort t) →
  ∀ m, Reader.formula m us = .error failure rest → FailsAfter P failure us)

include ih

theorem failsAfter_basicFormula_of_shorter (hsort : ∀ t ∈ ts, sort t)
    (h : basicFormula ts = .error failure rest) : FailsAfter P failure ts := by
  cases ts with
  | nil => exact passage.token (faultsAtTokens_unexpectedEnd _ _ _ _ h) []
  | cons t us =>
    have hsort' := List.forall_mem_cons.1 hsort
    simp only [basicFormula, Level.basicFormulaAbove, peek?_bind, List.head?_cons] at h
    split at h
    · next letter =>
      simp only [next?_bind_cons] at h
      exact passage.token (faultsAtTokens_metavariable letter _ _ _ h) _
    · simp only [next?_bind_cons] at h
      exact absurd h pure_ne_error
    · simp only [next?_bind_cons] at h
      rcases failsAfter_application passage .full (n := us.length)
          (fun vs _ hsort => failsAfter_term passage hsort) le_rfl hsort'.2 h with
        hfails | ⟨args, error, hargs, happly, rfl⟩
      · exact passage.after_known hsort'.1 hfails
      · exact passage.here (.predicate hargs happly)
    · simp only [get_bind] at h
      split at h
      · unfold Level.formulaElseTerm at h
        split at h
        · cases h
        · -- The failure is the one of the term, or that of the formula if it is final.
          next failure' rest' hformula =>
          split at h
          · exact failsAfter_infixPredicate passage hsort h
          · obtain ⟨rfl, rfl⟩ : failure' = failure ∧ rest' = rest := by simpa using h
            exact failsAfter_parenthesised passage
              (fun vs hvs hsort => ih vs hvs hsort Level.whole) hsort hformula
      · exact failsAfter_infixPredicate passage hsort h

theorem failsAfter_operand_of_shorter (hsort : ∀ t ∈ ts, sort t)
    (h : Reader.operand ts = .error failure rest) : FailsAfter P failure ts := by
  cases ts with
  | nil => exact passage.token (faultsAtTokens_unexpectedEnd _ _ _ _ h) []
  | cons t us =>
    have hsort' := List.forall_mem_cons.1 hsort
    simp only [Reader.operand, Level.operandAbove, peek?_bind, List.head?_cons] at h
    split at h
    · simp only [next?_bind_cons] at h
      rcases bind_eq_error_iff.1 h with h | ⟨_, _, -, h⟩
      · exact passage.after_known hsort'.1 (ih us (by simp) hsort'.2 _ h)
      · exact absurd h pure_ne_error
    · simp only [next?_bind_cons, Level.quantified] at h
      rcases bind_eq_error_iff.1 h with hname | ⟨bound, mid, hbound, hmore⟩
      · exact passage.token (faultsAtTokens_variableName _ _ _ hname) _
      · cases heigen : isEigenvariable bound with
        | true =>
          -- The quantifier is at fault, not its variable, which has been read.
          simp only [heigen, if_true, fail_eq_error_iff] at hmore
          rw [← hmore.1]
          exact passage.here (.eigenvariable hbound heigen)
        | false =>
          simp only [heigen, Bool.false_eq_true, if_false] at hmore
          rcases bind_eq_error_iff.1 hmore with hscope | ⟨_, _, -, hpure⟩
          · have hle := (forward_variableName.ok hbound).length_le
            obtain ⟨u, rfl, hu⟩ := (variableName_eq_ok_iff.1 hbound).exists_parts
            rw [List.forall_mem_append] at hsort'
            apply passage.after_known hsort'.1
            apply passage.after (passage.name hu)
            exact ih mid (by rw [List.length_cons]; omega) hsort'.2.2 _ hscope
          · exact absurd hpure pure_ne_error
    · exact failsAfter_basicFormula_of_shorter passage ih hsort h

end Shorter

/-- A formula fails at some token, after what is passed. The induction is on the number of tokens. -/
theorem failsAfter_formula {m : Threshold} (hsort : ∀ t ∈ ts, sort t)
    (h : Reader.formula m ts = .error failure rest) : FailsAfter P failure ts := by
  induction hlength : ts.length using Nat.strong_induction_on generalizing m ts with
  | _ n ihn =>
    subst hlength
    have ih : ∀ us : List Token, us.length < ts.length → (∀ t ∈ us, sort t) →
        ∀ m, Reader.formula m us = .error failure rest → FailsAfter P failure us :=
      fun us hus hsort m h => ihn us.length hus hsort h rfl
    rw [formula_eq] at h
    rcases bind_eq_error_iff.1 h with h | ⟨first, mid, hfirst, hrun⟩
    · exact failsAfter_operand_of_shorter passage ih hsort h
    · have hle := (forward_operand.ok hfirst).length_le
      obtain ⟨u, hts, hu⟩ := FormulaDerivation.of_operand hfirst
      rw [hts, List.forall_mem_append] at hsort
      rw [hts]
      apply passage.after (passage.formula hu hsort.1)
      refine failsAfter_infixRest passage forward_formula ?_ ?_ ih hle hsort.2 hrun
      · intro t op hop
        obtain ⟨lexeme, precedence, side, rfl⟩ := Token.infixConnective?_eq_some hop
        exact ⟨lexeme, _, rfl⟩
      · intro m us rest tree hread hsort
        obtain ⟨u, rfl, hu⟩ := FormulaDerivation.of_formula hread
        exact ⟨u, rfl, passage.formula hu (List.forall_mem_append.1 hsort).1⟩

end Passage

/-- If delimiters keep their meaning, a formula fails inside every group that it has opened. -/
theorem failsAfter_unclosed {failure : Failure} {ts rest : List Token} {m : Threshold}
    (hplain : ∀ t ∈ ts, t.Plain) (h : Reader.formula m ts = .error failure rest) :
    FailsAfter Unclosed failure ts :=
  failsAfter_formula passage_unclosed hplain h

end LatexLogic
