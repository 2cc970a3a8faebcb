import LatexLogic.Proofs.Grammar.Balance

/-!
# Two runs in lock step

Two lists of tokens that agree up to a prefix operator and the operator itself, after which its
application fails in the second of them (`Fork`). Both are read by the same reader. As long as
neither run has come to the operator they take the same tokens and answer alike; at the operator
both read its application, and there the second run fails (`InStep`).

The relation is closed under everything that readers are made of, so that it holds of the readers of
terms and formulas (`Fork.inStep_term`, `Fork.inStep_formula`). It says nothing about the second
list beyond the application, and nothing about the first one from the operator on. That a reader can
come back from a failure does no harm: the failure at the fork is final.
-/

set_option autoImplicit false

namespace LatexLogic

open Reader

/-! ## Forks -/

/-- The token is a prefix operator with arguments of a kind, a label and an arity. -/
inductive Token.Applies : Token → ArgumentKind → String → Nat → Prop where
  | function {lexeme : Lexeme} {label : String} {arity : Nat} {positive : 0 < arity}
      {note : Option Int} :
      Token.Applies (.known lexeme (.function label (.prefixOp arity positive note))) .basic label
        arity
  | predicate {lexeme : Lexeme} {label : String} {arity : Nat} {positive : 0 < arity} :
      Token.Applies (.known lexeme (.predicate label (.prefixOp arity positive))) .full label arity

section Applies

variable {t : Token} {kind : ArgumentKind} {label : String} {arity : Nat} {ts : List Token}

theorem Token.Applies.eq_known (h : t.Applies kind label arity) :
    (∃ lexeme positive note, t = .known lexeme (.function label (.prefixOp arity positive note)) ∧
      kind = .basic) ∨
    ∃ lexeme positive, t = .known lexeme (.predicate label (.prefixOp arity positive)) ∧
      kind = .full := by
  cases h with
  | function => exact Or.inl ⟨_, _, _, rfl, rfl⟩
  | predicate => exact Or.inr ⟨_, _, rfl, rfl⟩

theorem Token.Applies.written_ne (h : t.Applies kind label arity) (hplain : t.Plain)
    {delimiter : String} (hmem : delimiter ∈ delimiters) : t.written ≠ delimiter := by
  cases h with
  | function => exact hplain.written_ne hmem
  | predicate => exact hplain.written_ne hmem

/-- A prefix operator is no part of a name and no operator between two others. -/
theorem Token.Applies.eq_none (h : t.Applies kind label arity) :
    digitOf? t = none ∧ variableLetter? t = none ∧ t.infixFunction? = none ∧
      t.infixConnective? = none := by
  cases h with
  | function => exact ⟨rfl, rfl, rfl, rfl⟩
  | predicate => exact ⟨rfl, rfl, rfl, rfl⟩

end Applies

/-- A prefix operator with two lists that can follow it. In front of the second one its application
fails, and for good. -/
structure Fork where
  /-- The operator. -/
  operator : Token
  /-- The kind of its arguments. -/
  kind : ArgumentKind
  label : String
  arity : Nat
  applies : operator.Applies kind label arity
  plain : operator.Plain
  /-- What follows the operator in the first list. -/
  left : List Token
  /-- What follows the operator in the second list. -/
  right : List Token
  /-- The failure of the application in front of the second list. -/
  failure : Failure
  final : Level.leavesTerm failure = false
  fails : ∃ rest, Level.application operator.written label arity kind.reader right =
    .error failure rest

/-- The fork at an operator whose application fails with a wrong number of arguments. -/
def Token.Applies.fork {t : Token} {kind : ArgumentKind} {label : String} {arity : Nat}
    (h : t.Applies kind label arity) (hplain : t.Plain) (left right : List Token)
    {error : FormulaError} (hcount : error.isArgumentCount = true)
    (hfails : ∃ rest,
      Level.application t.written label arity kind.reader right = .error (.fault error) rest) :
    Fork where
  operator := t
  kind := kind
  label := label
  arity := arity
  applies := h
  plain := hplain
  left := left
  right := right
  failure := .fault error
  final := by rw [Level.leavesTerm, hcount, Bool.not_true]
  fails := hfails

namespace Fork

variable (f : Fork)

/-- The first list from the operator on. -/
def first : List Token := f.operator :: f.left

/-- The second list from the operator on. -/
def second : List Token := f.operator :: f.right

theorem written_ne {delimiter : String} (h : delimiter ∈ delimiters) :
    f.operator.written ≠ delimiter :=
  f.applies.written_ne f.plain h

/-- The next token is known whatever follows the operator. -/
theorem nextIs_eq (text : String) (pre ts : List Token) :
    nextIs text (pre ++ f.operator :: ts) = nextIs text (pre ++ [f.operator]) := by
  cases pre with
  | nil => rfl
  | cons t pre => rfl

theorem nextIs_eq_false {text : String} (h : text ∈ delimiters) (ts : List Token) :
    nextIs text (f.operator :: ts) = false := by
  rw [nextIs_cons]
  exact beq_false_of_ne (f.written_ne h)

/-- No parenthesis opens at the operator. -/
theorem opensWith_eq_false (ts : List Token) : opensWith "(" (f.operator :: ts) = false := by
  rw [opensWith, f.nextIs_eq_false (by decide), f.nextIs_eq_false (by decide)]
  rfl

/-- Whether a parenthesis opens is known whatever follows the operator. -/
theorem opensWith_eq (pre ts : List Token) :
    opensWith "(" (pre ++ f.operator :: ts) = opensWith "(" (pre ++ [f.operator]) := by
  cases pre with
  | nil => exact (f.opensWith_eq_false ts).trans (f.opensWith_eq_false []).symm
  | cons t pre =>
    show (nextIs "(" (t :: _) || (nextIs leftWord (t :: _) &&
      nextIs "(" (pre ++ f.operator :: ts))) = _
    rw [f.nextIs_eq]
    rfl

end Fork

/-! ## Lock step -/

/-- Two runs of a reader, on some tokens in front of the two lists of a fork: both succeed alike
before the fork, or both fail alike, or the second one fails at the fork. -/
inductive InStep (f : Fork) {α : Type} (r : Reader α) (pre : List Token) : Prop where
  | both {a : α} {mid : List Token} : mid <:+ pre → r (pre ++ f.first) = .ok a (mid ++ f.first) →
      r (pre ++ f.second) = .ok a (mid ++ f.second) → InStep f r pre
  | neither {failure : Failure} {rest rest' : List Token} :
      r (pre ++ f.first) = .error failure rest → r (pre ++ f.second) = .error failure rest' →
      InStep f r pre
  | fails {rest : List Token} : r (pre ++ f.second) = .error f.failure rest → InStep f r pre

namespace InStep

variable {f : Fork} {α β : Type} {pre : List Token}

/-! ### Single tokens -/

theorem pure (a : α) : InStep f (pure a : Reader α) pre :=
  .both (List.suffix_refl pre) rfl rfl

theorem fail (error : FormulaError) : InStep f (Reader.fail error : Reader α) pre :=
  .neither rfl rfl

/-- A reader that goes on as another one in both runs is in step if that one is. -/
theorem of_eq {r r' : Reader α} {mid : List Token} (h : InStep f r' mid) (hmid : mid <:+ pre)
    (hfirst : r (pre ++ f.first) = r' (mid ++ f.first))
    (hsecond : r (pre ++ f.second) = r' (mid ++ f.second)) : InStep f r pre := by
  cases h with
  | both hsuffix hfirst' hsecond' =>
    exact .both (hsuffix.trans hmid) (hfirst.trans hfirst') (hsecond.trans hsecond')
  | neither hfirst' hsecond' => exact .neither (hfirst.trans hfirst') (hsecond.trans hsecond')
  | fails hsecond' => exact .fails (hsecond.trans hsecond')

theorem of_forall_eq {r r' : Reader α} {mid : List Token} (h : InStep f r' mid) (hmid : mid <:+ pre)
    (heq : ∀ ts, r (pre ++ f.operator :: ts) = r' (mid ++ f.operator :: ts)) : InStep f r pre :=
  h.of_eq hmid (heq f.left) (heq f.right)

/-- A reader that fails whatever follows the operator is in step. -/
theorem of_forall_error {r : Reader α} (failure : Failure)
    (h : ∀ ts, ∃ rest, r (pre ++ f.operator :: ts) = .error failure rest) : InStep f r pre := by
  obtain ⟨rest, hfirst⟩ := h f.left
  obtain ⟨rest', hsecond⟩ := h f.right
  exact .neither hfirst hsecond

/-- One reader after the other is in step if the first is, and the second on whatever the first can
leave. -/
theorem bind {x : Reader α} {g : α → Reader β} (hx : InStep f x pre)
    (hg : ∀ a mid, mid <:+ pre → InStep f (g a) mid) : InStep f (x >>= g) pre := by
  cases hx with
  | @both a mid hmid hfirst hsecond =>
    exact (hg a mid hmid).of_eq hmid (bind_of_eq_ok hfirst) (bind_of_eq_ok hsecond)
  | neither hfirst hsecond => exact .neither (bind_of_eq_error hfirst) (bind_of_eq_error hsecond)
  | fails hsecond => exact .fails (bind_of_eq_error hsecond)

/-- A condition that is decided whatever follows the operator is decided alike in both runs. -/
theorem ite {condition : List Token → Bool} {r r' : Reader α}
    (hcondition : ∀ ts, condition (pre ++ f.operator :: ts) = condition (pre ++ [f.operator]))
    (hthen : condition (pre ++ [f.operator]) = true → InStep f r pre)
    (helse : condition (pre ++ [f.operator]) = false → InStep f r' pre) :
    InStep f (get >>= fun ts => if condition ts then r else r') pre := by
  cases hvalue : condition (pre ++ [f.operator]) with
  | true =>
    apply (hthen hvalue).of_forall_eq (List.suffix_refl pre)
    intro ts
    rw [get_bind, hcondition, hvalue, if_pos rfl]
  | false =>
    apply (helse hvalue).of_forall_eq (List.suffix_refl pre)
    intro ts
    rw [get_bind, hcondition, hvalue, if_neg Bool.false_ne_true]

/-- A demanded token that is not there is an error. -/
theorem expect_of_ne {written : String} {t : Token} (h : t.written ≠ written) (ts : List Token) :
    Reader.expect written (t :: ts) = .error (.fault (.badToken t.written (some written))) ts := by
  rw [Reader.expect, next?_bind_cons]
  dsimp only
  rw [if_neg h]
  rfl

/-- A demanded delimiter is taken before the fork or missing in both lists. -/
theorem expect {written : String} (h : written ∈ delimiters) :
    InStep f (Reader.expect written) pre := by
  cases pre with
  | nil => exact .neither (expect_of_ne (f.written_ne h) _) (expect_of_ne (f.written_ne h) _)
  | cons t pre =>
    by_cases ht : t.written = written
    · have htaken : ∀ ts, Reader.expect written (t :: ts) = .ok t ts :=
        fun ts => expect_eq_ok_iff.2 ⟨rfl, ht⟩
      exact .both (List.suffix_cons t pre) (htaken _) (htaken _)
    · exact .neither (expect_of_ne ht _) (expect_of_ne ht _)

/-- What goes on with the next token is in step if it fails at the operator. -/
theorem next {g : Token → Reader β} (failure : Failure)
    (hoperator : ∀ ts, g f.operator ts = .error failure ts)
    (hg : ∀ t mid, pre = t :: mid → InStep f (g t) mid) : InStep f (Reader.next >>= g) pre := by
  cases pre with
  | nil => exact of_forall_error failure fun ts => ⟨ts, hoperator ts⟩
  | cons t pre => exact (hg t pre rfl).of_forall_eq (List.suffix_cons t pre) fun ts => rfl

/-! ### Parentheses and lists -/

/-- Where no parenthesis stands nothing is read between parentheses. -/
theorem parenthesised_of_ne {inner : Reader α} {t : Token} (hleft : t.written ≠ leftWord)
    (hopen : t.written ≠ "(") (ts : List Token) :
    Reader.parenthesised inner (t :: ts) =
      .error (.fault (.badToken t.written (some "("))) ts := by
  rw [Reader.parenthesised, delimited, next?_bind_cons]
  dsimp only
  rw [if_neg hleft, if_neg hopen]
  rfl

/-- What is read between parentheses is read further on. -/
theorem parenthesised {inner : Reader α}
    (h : ∀ mid : List Token, mid.length < pre.length → InStep f inner mid) :
    InStep f (Reader.parenthesised inner) pre := by
  cases pre with
  | nil =>
    have hleft : f.operator.written ≠ leftWord := f.written_ne (by decide)
    have hopen : f.operator.written ≠ "(" := f.written_ne (by decide)
    exact .neither (parenthesised_of_ne hleft hopen _) (parenthesised_of_ne hleft hopen _)
  | cons t pre =>
    have hshorter : ∀ mid, mid <:+ pre → InStep f inner mid :=
      fun mid hmid => h mid (Nat.lt_succ_of_le hmid.length_le)
    by_cases hleft : t.written = leftWord
    · have hlong : InStep f (do
          let _ ← Reader.expect "("
          let result ← inner
          let _ ← Reader.expect rightWord
          let _ ← Reader.expect ")"
          return result) pre := by
        apply (expect (by decide)).bind
        intro _ mid hmid
        apply (hshorter mid hmid).bind
        intro result _ _
        exact (expect (by decide)).bind fun _ _ _ => (expect (by decide)).bind fun _ _ _ => pure _
      apply hlong.of_forall_eq (List.suffix_cons t pre)
      intro ts
      rw [List.cons_append, Reader.parenthesised, delimited, next?_bind_cons]
      dsimp only
      rw [if_pos hleft]
    · by_cases hopen : t.written = "("
      · have hshort : InStep f (do
            let result ← inner
            let _ ← Reader.expect ")"
            return result) pre := by
          apply (hshorter pre (List.suffix_refl pre)).bind
          intro result _ _
          exact (expect (by decide)).bind fun _ _ _ => pure _
        apply hshort.of_forall_eq (List.suffix_cons t pre)
        intro ts
        rw [List.cons_append, Reader.parenthesised, delimited, next?_bind_cons]
        dsimp only
        rw [if_neg hleft, if_pos hopen]
      · exact .neither (parenthesised_of_ne hleft hopen _) (parenthesised_of_ne hleft hopen _)

theorem braced {inner : Reader α} (h : ∀ mid, mid <:+ pre → InStep f inner mid) :
    InStep f (Reader.braced inner) pre := by
  apply (expect (by decide)).bind
  intro _ mid hmid
  apply (h mid hmid).bind
  intro result _ _
  exact (expect (by decide)).bind fun _ _ _ => pure _

/-- A list is read in step if its items are. The induction is on the number of tokens before the
fork. -/
theorem list {item : Reader α} (hforward : item.Forward) {n : Nat}
    (h : ∀ mid : List Token, mid.length ≤ n → InStep f item mid) (hpre : pre.length ≤ n) :
    InStep f (Reader.list item) pre := by
  induction hlength : pre.length using Nat.strong_induction_on generalizing pre with
  | _ k ih =>
    cases h pre hpre with
    | neither hfirst hsecond => exact .neither (list_of_error hfirst) (list_of_error hsecond)
    | fails hsecond => exact .fails (list_of_error hsecond)
    | @both a mid hmid hfirst hsecond =>
      have hle := hmid.length_le
      -- The list goes on after a comma, which stands before the fork.
      cases hcomma : nextIs "," (mid ++ [f.operator]) with
      | false =>
        exact .both hmid (list_of_end hfirst ((f.nextIs_eq "," mid _).trans hcomma))
          (list_of_end hsecond ((f.nextIs_eq "," mid _).trans hcomma))
      | true =>
        cases mid with
        | nil =>
          -- The operator itself is no comma.
          rw [List.nil_append, f.nextIs_eq_false (by decide)] at hcomma
          cases hcomma
        | cons t mid =>
          have ht : t.written = "," := by simpa using hcomma
          have hmore : InStep f (Reader.list item) mid := by
            rw [List.length_cons] at hle
            exact ih mid.length (by omega) (by omega) rfl
          have hrest := hmore.bind fun as _ _ => pure (a :: as)
          exact hrest.of_eq ((List.suffix_cons t mid).trans hmid)
            (list_of_comma hforward hfirst ht) (list_of_comma hforward hsecond ht)

/-- An application is read in step if its arguments are. -/
theorem application {symbol label : String} {arity : Nat} {argument : Reader Tree}
    (hforward : argument.Forward)
    (h : ∀ mid : List Token, mid.length < pre.length → InStep f argument mid) :
    InStep f (Level.application symbol label arity argument) pre := by
  have hargs : InStep f (Reader.parenthesised (Reader.list argument)) pre := by
    apply parenthesised
    intro mid hmid
    exact list hforward (fun us hus => h us (hus.trans_lt hmid)) le_rfl
  apply hargs.bind
  intro args mid _
  cases Tree.applied symbol label arity args with
  | ok tree => exact pure tree
  | error error => exact fail error

/-- A run of operators is read in step if its operands are. The induction is on the number of tokens
before the fork. -/
theorem infixRest {operator? : Token → Option InfixOperator} {operand : Threshold → Reader Tree}
    (hforward : ∀ m, (operand m).Forward) (hoperator : operator? f.operator = none) {n : Nat}
    (h : ∀ (m : Threshold) (mid : List Token), mid.length < n → InStep f (operand m) mid)
    (m : Threshold) (tree : Tree) (hpre : pre.length ≤ n) :
    InStep f (Reader.infixRest operator? operand m tree) pre := by
  induction hlength : pre.length using Nat.strong_induction_on generalizing pre tree with
  | _ k ih =>
    cases pre with
    | nil =>
      -- The run ends at a prefix operator, before any of it is read.
      have hnone : ∀ ts, continuing? operator? m (f.operator :: ts) = none := by
        intro ts
        rw [continuing?_cons, hoperator, Option.filter_none]
      exact .both (List.suffix_refl []) (infixRest_of_none (hnone _) tree)
        (infixRest_of_none (hnone _) tree)
    | cons t pre =>
      cases hop : continuing? operator? m (t :: pre) with
      | none =>
        have hnone : ∀ ts, continuing? operator? m (t :: ts) = none := fun _ => hop
        exact .both (List.suffix_refl _) (infixRest_of_none (hnone _) tree)
          (infixRest_of_none (hnone _) tree)
      | some op =>
        have hsome : ∀ ts, continuing? operator? m (t :: ts) = some op := fun _ => hop
        rw [List.length_cons] at hpre hlength
        have hrest : InStep f (operand (.power op.rightPower) >>= fun right =>
            Reader.infixRest operator? operand m (.node op.label [tree, right])) pre := by
          apply (h _ pre (by omega)).bind
          intro right mid hmid
          have hle := hmid.length_le
          exact ih mid.length (by omega) _ (by omega) rfl
        apply hrest.of_forall_eq (List.suffix_cons t pre)
        intro ts
        exact infixRest_of_some hforward (hsome _) tree

/-! ### Names -/

/-- Digits are taken up to the operator at most. -/
theorem exists_leadingDigits (f : Fork) (pre : List Token) :
    ∃ ds mid, mid <:+ pre ∧
      ∀ ts, leadingDigits (pre ++ f.operator :: ts) = (ds, mid ++ f.operator :: ts) := by
  induction pre with
  | nil =>
    exact ⟨[], [], List.suffix_refl [],
      fun ts => leadingDigits_of_digitOf?_eq_none f.applies.eq_none.1⟩
  | cons t pre ih =>
    cases hdigit : digitOf? t with
    | none =>
      exact ⟨[], t :: pre, List.suffix_refl _, fun ts => leadingDigits_of_digitOf?_eq_none hdigit⟩
    | some c =>
      obtain ⟨rfl, hc⟩ := digitOf?_eq_some_iff.1 hdigit
      obtain ⟨ds, mid, hmid, hdigits⟩ := ih
      refine ⟨c :: ds, mid, hmid.trans (List.suffix_cons _ _), fun ts => ?_⟩
      rw [List.cons_append, leadingDigits, if_pos hc, hdigits]

theorem integer : InStep f Reader.integer pre := by
  obtain ⟨ds, mid, hmid, hdigits⟩ := exists_leadingDigits f pre
  cases ds with
  | nil =>
    -- The token that is no digit is the next one of both lists.
    cases mid with
    | nil =>
      apply of_forall_error (.fault (.badToken f.operator.written none))
      intro ts
      refine ⟨f.operator :: ts, ?_⟩
      rw [Reader.integer, hdigits]
      rfl
    | cons t mid =>
      apply of_forall_error (.fault (.badToken t.written none))
      intro ts
      refine ⟨t :: (mid ++ f.operator :: ts), ?_⟩
      rw [Reader.integer, hdigits]
      rfl
  | cons d ds =>
    have hread : ∀ ts, Reader.integer (pre ++ f.operator :: ts) =
        .ok (String.ofList (d :: ds)) (mid ++ f.operator :: ts) := by
      intro ts
      rw [Reader.integer, hdigits]
    exact .both hmid (hread _) (hread _)

theorem subscript : InStep f Reader.subscript pre := by
  apply (expect (by decide)).bind
  intro _ mid _
  have hbraced : InStep f (Reader.braced Reader.integer) mid := braced fun _ _ => integer
  cases mid with
  | nil =>
    apply hbraced.of_forall_eq (List.suffix_refl [])
    intro ts
    simp only [List.nil_append, peek?_bind, List.head?_cons, f.applies.eq_none.1]
  | cons t mid =>
    cases hdigit : digitOf? t with
    | none =>
      apply hbraced.of_forall_eq (List.suffix_refl _)
      intro ts
      simp only [List.cons_append, peek?_bind, List.head?_cons, hdigit]
    | some d =>
      apply (pure (String.singleton d)).of_forall_eq (List.suffix_cons t mid)
      intro ts
      simp only [List.cons_append, peek?_bind, List.head?_cons, hdigit, next?_bind_cons]

theorem withSubscript (name : String) : InStep f (Reader.withSubscript name) pre := by
  apply ite (f.nextIs_eq "_" pre)
  · intro _
    exact subscript.bind fun _ _ _ => pure _
  · intro _
    exact pure name

theorem variableName : InStep f Reader.variableName pre := by
  apply next (.fault (.badToken f.operator.written none))
  · intro ts
    simp only [f.applies.eq_none.2.1]
    rfl
  · intro t mid _
    cases variableLetter? t with
    | none => exact fail _
    | some c => exact withSubscript _

theorem metavariable (letter : MetaLetter) : InStep f (Reader.metavariable letter) pre := by
  apply (withSubscript letter.name).bind
  intro name mid _
  have hdeclaration : InStep f declaration mid := by
    apply ite (f.opensWith_eq mid)
    · intro _
      apply parenthesised
      intro us _
      exact list forward_variableName (fun _ _ => variableName) le_rfl
    · intro _
      exact pure []
  exact hdeclaration.bind fun _ _ _ => pure _

/-! ### The choice at a parenthesis -/

theorem formulaElseTerm_of_error {formula : Reader Tree} {ts rest : List Token}
    {failure : Failure} (h : formula ts = .error failure rest) (term : Reader Tree) :
    Level.formulaElseTerm formula term ts =
      if Level.leavesTerm failure then term ts else .error failure rest := by
  rw [Level.formulaElseTerm, h]

/-- A formula or else a term is read in step if both are. The failure at the fork leaves no term. -/
theorem formulaElseTerm {formula term : Reader Tree} (hformula : InStep f formula pre)
    (hterm : InStep f term pre) : InStep f (Level.formulaElseTerm formula term) pre := by
  cases hformula with
  | @both a mid hmid hfirst hsecond =>
    have heq : ∀ {ts rest : List Token}, formula ts = .ok a rest →
        Level.formulaElseTerm formula term ts = .ok a rest := by
      intro ts rest h
      rw [Level.formulaElseTerm, h]
    exact .both hmid (heq hfirst) (heq hsecond)
  | @neither failure rest rest' hfirst hsecond =>
    have hfirst' := formulaElseTerm_of_error hfirst term
    have hsecond' := formulaElseTerm_of_error hsecond term
    cases hleaves : Level.leavesTerm failure with
    | true =>
      rw [hleaves, if_pos rfl] at hfirst' hsecond'
      exact hterm.of_eq (List.suffix_refl pre) hfirst' hsecond'
    | false =>
      rw [hleaves, if_neg Bool.false_ne_true] at hfirst' hsecond'
      exact .neither hfirst' hsecond'
  | fails hsecond =>
    have hsecond' := formulaElseTerm_of_error hsecond term
    rw [f.final, if_neg Bool.false_ne_true] at hsecond'
    exact .fails hsecond'

end InStep

/-! ## Terms -/

namespace Fork

variable (f : Fork) {pre : List Token}

/-- At a prefix function the second run fails. -/
theorem inStep_of_basic (h : f.kind = .basic) : InStep f basicTerm [] := by
  obtain ⟨lexeme, positive, note, hoperator, -⟩ | ⟨lexeme, positive, -, hkind⟩ := f.applies.eq_known
  · obtain ⟨rest, hfails⟩ := f.fails
    apply InStep.fails
    show basicTerm (f.operator :: f.right) = _
    rw [h, hoperator] at hfails
    rw [hoperator]
    exact (congrFun basicTerm_eq _).trans hfails
  · rw [h] at hkind
    cases hkind

/-- A basic term is read in step if terms before it are. -/
theorem inStep_basicTerm_of_shorter
    (ih : ∀ mid : List Token, mid.length < pre.length →
      InStep f basicTerm mid ∧ ∀ m, InStep f (Reader.term m) mid) : InStep f basicTerm pre := by
  have hother : InStep f (get >>= fun ts =>
      if opensWith "(" ts then Reader.parenthesised (Reader.term Level.whole)
      else Reader.variableName >>= fun name => pure (.atom name)) pre := by
    apply InStep.ite (f.opensWith_eq pre)
    · intro _
      exact InStep.parenthesised fun mid hmid => (ih mid hmid).2 _
    · intro _
      exact InStep.variableName.bind fun _ _ _ => InStep.pure _
  cases pre with
  | nil =>
    cases hkind : f.kind with
    | basic => exact f.inStep_of_basic hkind
    | full =>
      -- A prefix predicate begins no term: both runs fail at it without its arguments.
      apply hother.of_forall_eq (List.suffix_refl [])
      intro ts
      obtain ⟨lexeme, positive, note, -, hbasic⟩ | ⟨lexeme, positive, hoperator, -⟩ :=
        f.applies.eq_known
      · rw [hkind] at hbasic
        cases hbasic
      · rw [hoperator]
        exact congrFun basicTerm_eq _
  | cons t pre =>
    rcases t with
      ⟨lexeme, ⟨_, _⟩ | _ | ⟨_, _⟩ | ⟨label, ⟨arity, positive, note⟩ | _⟩⟩ | _ | _ | _
    case known.function.prefixOp =>
      have happlication :
          InStep f (Level.application lexeme.written label arity basicTerm) pre := by
        apply InStep.application forward_basicTerm
        intro mid hmid
        exact (ih mid (hmid.trans (Nat.lt_succ_self _))).1
      exact happlication.of_forall_eq (List.suffix_cons _ _) fun ts => congrFun basicTerm_eq _
    all_goals exact hother.of_forall_eq (List.suffix_refl _) fun ts => congrFun basicTerm_eq _

/-- Basic terms and terms are read in step. The induction is on the number of tokens before the
fork. -/
theorem inStep_basicTerm_and_term (pre : List Token) :
    InStep f basicTerm pre ∧ ∀ m, InStep f (Reader.term m) pre := by
  induction hlength : pre.length using Nat.strong_induction_on generalizing pre with
  | _ n ihn =>
    subst hlength
    have ih : ∀ mid : List Token, mid.length < pre.length →
        InStep f basicTerm mid ∧ ∀ m, InStep f (Reader.term m) mid :=
      fun mid hmid => ihn mid.length hmid mid rfl
    have hbasic := f.inStep_basicTerm_of_shorter ih
    refine ⟨hbasic, fun m => ?_⟩
    rw [term_eq]
    apply hbasic.bind
    intro first mid hmid
    exact InStep.infixRest forward_term f.applies.eq_none.2.2.1 (fun m us hus => (ih us hus).2 m) m
      first hmid.length_le

theorem inStep_term (m : Threshold) (pre : List Token) : InStep f (Reader.term m) pre :=
  (f.inStep_basicTerm_and_term pre).2 m

/-! ## Formulas -/

theorem inStep_infixPredicate (pre : List Token) : InStep f infixPredicate pre := by
  rw [infixPredicate_eq]
  apply (f.inStep_term _ pre).bind
  intro left mid _
  apply InStep.next (.fault (.badToken f.operator.written none))
  · intro ts
    obtain ⟨lexeme, positive, note, hoperator, -⟩ | ⟨lexeme, positive, hoperator, -⟩ :=
      f.applies.eq_known
    · rw [hoperator]
      rfl
    · rw [hoperator]
      rfl
  · intro t us _
    rcases t with ⟨lexeme, ⟨_, _⟩ | _ | ⟨label, _ | _⟩ | ⟨_, _⟩⟩ | _ | _ | _
    case known.predicate.infixOp => exact (f.inStep_term _ us).bind fun _ _ _ => InStep.pure _
    all_goals exact InStep.fail _

/-- A basic formula is read in step if formulas before it are. -/
theorem inStep_basicFormula_of_shorter
    (ih : ∀ mid : List Token, mid.length < pre.length → ∀ m, InStep f (Reader.formula m) mid) :
    InStep f basicFormula pre := by
  have hother : InStep f (get >>= fun ts =>
      if opensWith "(" ts then
        Level.formulaElseTerm (Reader.parenthesised (Reader.formula Level.whole)) infixPredicate
      else infixPredicate) pre := by
    apply InStep.ite (f.opensWith_eq pre)
    · intro _
      exact (InStep.parenthesised fun mid hmid => ih mid hmid _).formulaElseTerm
        (f.inStep_infixPredicate pre)
    · intro _
      exact f.inStep_infixPredicate pre
  cases pre with
  | nil =>
    obtain ⟨lexeme, positive, note, hoperator, -⟩ | ⟨lexeme, positive, hoperator, hkind⟩ :=
      f.applies.eq_known
    · apply hother.of_forall_eq (List.suffix_refl [])
      intro ts
      rw [hoperator]
      rfl
    · -- At a prefix predicate the second run fails.
      obtain ⟨rest, hfails⟩ := f.fails
      apply InStep.fails
      show basicFormula (f.operator :: f.right) = _
      rw [hkind, hoperator] at hfails
      rw [hoperator]
      exact hfails
  | cons t pre =>
    rcases t with ⟨lexeme, ⟨label, _ | _ | _⟩ | _ | ⟨label, ⟨arity, positive⟩ | _⟩ | ⟨_, _⟩⟩ |
      letter | _ | _
    case known.connective.nullary =>
      exact (InStep.pure (.atom label)).of_forall_eq (List.suffix_cons _ _) fun ts => rfl
    case known.predicate.prefixOp =>
      have happlication : InStep f
          (Level.application lexeme.written label arity (Reader.term Level.whole)) pre :=
        InStep.application (forward_term _) fun mid _ => f.inStep_term _ mid
      exact happlication.of_forall_eq (List.suffix_cons _ _) fun ts => rfl
    case metavariable =>
      exact (InStep.metavariable letter).of_forall_eq (List.suffix_cons _ _) fun ts => rfl
    all_goals exact hother.of_forall_eq (List.suffix_refl _) fun ts => rfl

/-- An operand is read in step if formulas before it are. -/
theorem inStep_operand_of_shorter
    (ih : ∀ mid : List Token, mid.length < pre.length → ∀ m, InStep f (Reader.formula m) mid) :
    InStep f Reader.operand pre := by
  have hbasic := f.inStep_basicFormula_of_shorter ih
  cases pre with
  | nil =>
    apply hbasic.of_forall_eq (List.suffix_refl [])
    intro ts
    obtain ⟨lexeme, positive, note, hoperator, -⟩ | ⟨lexeme, positive, hoperator, -⟩ :=
      f.applies.eq_known
    · rw [hoperator]
      rfl
    · rw [hoperator]
      rfl
  | cons t pre =>
    have hshorter : ∀ mid : List Token, mid <:+ pre → ∀ m, InStep f (Reader.formula m) mid :=
      fun mid hmid => ih mid (Nat.lt_succ_of_le hmid.length_le)
    rcases t with
      ⟨lexeme, ⟨label, _ | ⟨precedence, note⟩ | _⟩ | label | ⟨_, _⟩ | ⟨_, _⟩⟩ | _ | _ | _
    case known.connective.prefixOp =>
      have hargument := (hshorter pre (List.suffix_refl pre)
        (.power (Construct.connectivePowers (.prefixOp precedence note)).2)).bind
        fun argument _ _ => InStep.pure (Tree.node label [argument])
      exact hargument.of_forall_eq (List.suffix_cons _ _) fun ts => operand_before _
    case known.quantifier =>
      have hquantified : InStep f (Reader.variableName >>= fun bound =>
          if isEigenvariable bound then Reader.fail (.boundEigenvariable bound)
          else Reader.formula .unreachable >>= fun scope =>
            pure (Tree.node label [.atom bound, scope])) pre := by
        apply InStep.variableName.bind
        intro bound mid hmid
        cases isEigenvariable bound with
        | true => exact InStep.fail _
        | false => exact (hshorter mid hmid _).bind fun _ _ _ => InStep.pure _
      exact hquantified.of_forall_eq (List.suffix_cons _ _) fun ts => operand_quantified _
    all_goals exact hbasic.of_forall_eq (List.suffix_refl _) fun ts => rfl

/-- Formulas are read in step. The induction is on the number of tokens before the fork. -/
theorem inStep_formula (m : Threshold) (pre : List Token) : InStep f (Reader.formula m) pre := by
  induction hlength : pre.length using Nat.strong_induction_on generalizing m pre with
  | _ n ihn =>
    subst hlength
    have ih : ∀ mid : List Token, mid.length < pre.length → ∀ m, InStep f (Reader.formula m) mid :=
      fun mid hmid m => ihn mid.length hmid m mid rfl
    rw [formula_eq]
    apply (f.inStep_operand_of_shorter ih).bind
    intro first mid hmid
    exact InStep.infixRest forward_formula f.applies.eq_none.2.2.2 (fun m us hus => ih us hus m) m
      first hmid.length_le

/-- If the first list is a formula to its end, the second one fails at the fork. -/
theorem exists_error {m : Threshold} {tree : Tree}
    (h : Reader.formula m (pre ++ f.first) = .ok tree []) :
    ∃ rest, Reader.formula m (pre ++ f.second) = .error f.failure rest := by
  cases f.inStep_formula m pre with
  | both _ hfirst _ =>
    -- A run that is still before the fork has not come to its end.
    rw [h] at hfirst
    simp [first] at hfirst
  | neither hfirst _ =>
    rw [h] at hfirst
    cases hfirst
  | fails hsecond => exact ⟨_, hsecond⟩

end Fork

end LatexLogic
